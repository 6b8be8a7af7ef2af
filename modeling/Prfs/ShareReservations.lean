import Prfs.Nfs4Effects

namespace Prfs

namespace NfsV4

variable {v : NfsV4} {m m' : OrdMap UInt64 OpenState} {k : UInt64} {o o' : OpenState}

/-- Distinct opens of one file hold modes that go together. -/
def SharesHold (m : OrdMap UInt64 OpenState) : Prop :=
  ∀ k k' o o', k ≠ k' → m.get k = some o → m.get k' = some o' → o.fileId = o'.fileId →
    o.access &&& o'.deny = 0 ∧ o'.access &&& o.deny = 0

/-- The modes conflict with no open of the file other than the one at `k`. -/
def ModesClear (m : OrdMap UInt64 OpenState) (k fileId : UInt64) (access deny : UInt32) : Prop :=
  ∀ e ∈ m.entries, e.1 ≠ k → e.2.fileId = fileId → conflicts access deny e.2 = false

instance ModesClear.decidable (m : OrdMap UInt64 OpenState) (k fileId : UInt64) (access deny : UInt32) :
    Decidable (ModesClear m k fileId access deny) :=
  inferInstanceAs (Decidable (∀ e ∈ m.entries, _))

theorem conflicts_eq_false {access deny : UInt32} :
    conflicts access deny o = false ↔ access &&& o.deny = 0 ∧ o.access &&& deny = 0 := by
  simp [conflicts, UInt32.and_comm deny]

theorem or_and_eq_zero {a b c : UInt32} : (a ||| b) &&& c = 0 ↔ a &&& c = 0 ∧ b &&& c = 0 := by
  have hd : (a ||| b) &&& c = (a &&& c) ||| (b &&& c) := UInt32.eq_of_toBitVec_eq BitVec.and_or_distrib_right
  rw [hd]
  exact UInt32.or_eq_zero_iff

theorem SharesHold.mono (h : SharesHold m) (hsub : ∀ k o, m'.get k = some o → m.get k = some o) :
    SharesHold m' :=
  fun k k' o o' hne ho ho' => h k k' o o' hne (hsub k o ho) (hsub k' o' ho')

theorem SharesHold.put (h : SharesHold m) (hc : ModesClear m k o.fileId o.access o.deny) :
    SharesHold (m.put k o) := by
  have hclear : ∀ j p, j ≠ k → m.get j = some p → o.fileId = p.fileId →
      o.access &&& p.deny = 0 ∧ p.access &&& o.deny = 0 :=
    fun j p hj hp hf => conflicts_eq_false.mp (hc (j, p) (OrdMap.mem_iff_get.mpr hp) hj hf.symm)
  intro i j p q hne hp hq hf
  rw [OrdMap.get_put] at hp hq
  split_ifs at hp hq with hi hj hj
  · exact absurd (hi.trans hj.symm) hne
  · cases hp
    exact hclear j q hj hq hf
  · cases hq
    exact (hclear i p hi hp hf.symm).symm
  · exact h i j p q hne hp hq hf

/-- An open that keeps its file and modes keeps the reservations. -/
theorem SharesHold.modesClear (h : SharesHold m) (ho : m.get k = some o) :
    ModesClear m k o.fileId o.access o.deny := by
  rintro ⟨j, p⟩ hp hj hf
  exact conflicts_eq_false.mpr (h k j o p (Ne.symm hj) ho (OrdMap.mem_iff_get.mp hp) hf.symm)

theorem ModesClear.widen {fileId : UInt64} {access deny access' deny' : UInt32}
    (h : ModesClear m k fileId access deny) (h' : ModesClear m k fileId access' deny') :
    ModesClear m k fileId (access ||| access') (deny ||| deny') := by
  intro e he hk hf
  obtain ⟨ha, hd⟩ := conflicts_eq_false.mp (h e he hk hf)
  obtain ⟨ha', hd'⟩ := conflicts_eq_false.mp (h' e he hk hf)
  rw [UInt32.and_comm] at hd hd'
  refine conflicts_eq_false.mpr ⟨or_and_eq_zero.mpr ⟨ha, ha'⟩, ?_⟩
  rw [UInt32.and_comm]
  exact or_and_eq_zero.mpr ⟨hd, hd'⟩

/-- A re-open by the owner of an open, and a downgrade, ask for modes that conflict with
no other open of the file. -/
def SharesKept (v : NfsV4) : Req → Prop
  | .openFile access deny clientid owner (.ok fileId) =>
    ∀ e ∈ v.opens.entries, e.1 ≠ 0 → e.2.fileId = fileId → e.2.clientid = clientid → e.2.owner = owner →
      ModesClear v.opens e.1 fileId access deny
  | .openDowngrade sid access deny =>
    ∀ e ∈ v.opens.entries, e.1 = sid.id → ModesClear v.opens sid.id e.2.fileId access deny
  | _ => True

instance SharesKept.decidable (v : NfsV4) (r : Req) : Decidable (v.SharesKept r) := by
  unfold SharesKept
  split <;> infer_instance

theorem openFile_shares (h : SharesHold v.opens) {pos : WalkOrder} {access deny : UInt32} {clientid : UInt64}
    {owner : Bytes} {fileId : UInt64} (hk : v.SharesKept (.openFile access deny clientid owner (.ok fileId))) :
    SharesHold (v.openFile pos access deny clientid owner fileId).2.opens := by
  unfold openFile
  dsimp only
  split_ifs with hup hany
  · obtain ⟨o, ho, hp⟩ := firstKey_spec hup
    obtain ⟨⟨hf, hc⟩, hw⟩ : (o.fileId = fileId ∧ o.clientid = clientid) ∧ o.owner = owner := by simpa using hp
    have hclear := hk (_, o) (OrdMap.mem_iff_get.mpr ho) hup hf hc hw
    have hown := h.modesClear ho
    rw [ho, Option.getD_some]
    refine h.put ?_
    simp only [hf] at hown hclear ⊢
    exact hown.widen hclear
  · exact h
  · refine h.put ?_
    rintro ⟨j, p⟩ hp - hf
    simp only [List.any_eq_true, not_exists, not_and] at hany
    have hj := hany (j, p) (mem_walk.mpr (OrdMap.mem_iff_get.mp hp))
    simpa [show p.fileId = fileId from hf] using hj

theorem lockFile_opens {pos : WalkOrder} {write : Bool} {off len clientid : UInt64} {owner : Bytes}
    {fileId : UInt64} : (v.lockFile pos write off len clientid owner fileId).2.opens = v.opens := by
  unfold lockFile ownLock
  split
  · rfl
  · dsimp only
    split_ifs <;> rfl

/-- What each request does to the opens. -/
theorem exec_shares (hash : Bytes → UInt64) (pos : WalkOrder) {r : Req} (h : SharesHold v.opens)
    (hk : v.SharesKept r) : SharesHold (v.exec hash pos r).2.opens := by
  cases r with
  | setClientid verifier id cbProgram cbNetid cbAddr cbIdent =>
    simp only [exec, opSetClientid]
    split_ifs <;> exact h
  | setClientidConfirm clientid confirm =>
    rcases opSetClientidConfirm_cases pos v clientid confirm with hv | ⟨r, -, -, -, hv⟩
    · rwa [exec, hv]
    · rw [exec, hv]
      exact h.mono fun _ _ ho => (dropLeases_opens_iff.mp ho).1
  | openFile access deny clientid owner file =>
    rcases opOpen_cases pos v access deny clientid owner file with hv | ⟨fileId, rfl, -, hv⟩
    · rwa [exec, hv]
    · rw [exec, hv]
      exact openFile_shares h hk
  | openConfirm sid =>
    simp only [exec, opOpenConfirm]
    split
    · exact h
    · next o ho =>
      have hown : ModesClear v.opens sid.id o.fileId o.access o.deny := h.modesClear ho
      exact h.put hown
  | openDowngrade sid access deny =>
    simp only [exec, opOpenDowngrade]
    split
    · exact h
    · next o ho => exact h.put (hk (sid.id, o) (OrdMap.mem_iff_get.mpr ho) rfl)
  | close sid =>
    rcases opClose_cases v sid with hv | hv
    · rwa [exec, hv]
    · rw [exec, hv]
      refine h.mono (fun j p hp => ?_)
      rw [OrdMap.get_del] at hp
      split_ifs at hp
      exact hp
  | lock locktype off len locker file =>
    rcases opLock_cases pos v locktype off len locker file with hv | ⟨clientid, owner, fileId, -, hv⟩
    · rwa [exec, hv]
    · rwa [exec, hv, lockFile_opens]
  | locku sid off len =>
    simp only [exec, opLocku]
    split <;> exact h
  | renew | lockt | releaseLockowner | read | write => exact h

/-- Along every run whose re-opens and downgrades ask for modes that conflict with no
other open of the file, two opens of one file have compatible modes. -/
theorem share_reservations_hold {hash : Bytes → UInt64} {v : NfsV4}
    (h : Reaches (step hash) (fun v i => v.SharesKept i.2) {} v) {k k' : UInt64} {o o' : OpenState} (hne : k ≠ k')
    (ho : v.opens.get k = some o) (ho' : v.opens.get k' = some o') (hf : o.fileId = o'.fileId) :
    o.access &&& o'.deny = 0 ∧ o'.access &&& o.deny = 0 := by
  have hinv : SharesHold v.opens :=
    h.invariant (P := fun v => SharesHold v.opens) (fun v i hv hk => exec_shares hash i.1 hv hk)
      (fun k k' o o' _ ho => by cases ho)
  exact hinv k k' o o' hne ho ho' hf

/-- Owners `A` and `B` of one client open a file for READ, then `A` re-opens it. -/
def reopenRun (access deny : UInt32) : List (WalkOrder × Req) :=
  [.setClientid 7 [99] 0 [] [] 0, .setClientidConfirm 1 (viewFileid (1 ^^^ 7) 0), .openFile 1 0 1 [65] (.ok 2),
    .openFile 1 0 1 [66] (.ok 2), .openFile access deny 1 [65] (.ok 2)].map (fun r => (fun _ => 0, r))

theorem share_reservations_hold_widened :
    let v := (reopenRun 2 2).foldl (step (fun _ => 0)) {}
    ∃ o o', v.opens.get 1 = some o ∧ v.opens.get 2 = some o' ∧ o.access = 3 ∧ o.deny = 2 ∧
      o.access &&& o'.deny = 0 ∧ o'.access &&& o.deny = 0 :=
  ⟨{ clientid := 1, owner := [65], fileId := 2, access := 3, deny := 2, seqid := 2 },
    { clientid := 1, owner := [66], fileId := 2, access := 1 }, by decide, by decide, rfl, rfl,
    @share_reservations_hold _ ((reopenRun 2 2).foldl (step (fun _ => 0)) {}) (Reaches.of_allowed (by decide)) 1 2
      _ _ (by decide) (by decide) (by decide) rfl⟩

/-- A re-open that denies READ is granted while the other owner holds READ. -/
theorem reopen_denies_held_access :
    let v := (reopenRun 1 1).foldl (step (fun _ => 0)) {}
    Reaches (step (fun _ => 0)) (fun _ _ => True) {} v ∧
      ∃ o o', v.opens.get 1 = some o ∧ v.opens.get 2 = some o' ∧ o.fileId = o'.fileId ∧ o'.access &&& o.deny ≠ 0 :=
  ⟨Reaches.of_allowed (by decide),
    { clientid := 1, owner := [65], fileId := 2, access := 1, deny := 1, seqid := 2 },
    { clientid := 1, owner := [66], fileId := 2, access := 1 }, by decide, by decide, rfl, by decide⟩

end NfsV4

end Prfs
