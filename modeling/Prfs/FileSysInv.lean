import Mathlib.Data.Nat.Bitwise
import Prfs.FileSys

namespace Prfs

theorem isSnapDir_of_lt {id : UInt64} (h : id < SNAP_BIT) : isSnapDir id = false := by
  have hlt : id.toNat < 2 ^ 63 := by
    rw [UInt64.lt_iff_toNat_lt] at h
    exact h
  simp only [isSnapDir, bne_eq_false_iff_eq]
  apply UInt64.toNat_inj.mp
  rw [UInt64.toNat_and]
  show id.toNat &&& 2 ^ 63 = 0
  rw [Nat.and_comm, Nat.two_pow_and, Nat.testBit_lt_two_pow hlt]
  rfl

/-- The counters stay in their id spaces: node ids below the snapshot-directory bit
and snapshot ids below the sentinel for the live view. -/
def Op.Fits (next : UInt64) (cur : SnapId) : Op → Prop
  | .mkdir | .mkfile _ | .symlink _ | .mkfifo | .mksock | .mknod .. => next < SNAP_BIT
  | .snapshot _ => cur < LATEST - 1
  | _ => True

instance Op.Fits.decidable (next : UInt64) (cur : SnapId) : (op : Op) → Decidable (op.Fits next cur)
  | .mkdir | .mkfile _ | .symlink _ | .mkfifo | .mksock | .mknod .. =>
    inferInstanceAs (Decidable (next < SNAP_BIT))
  | .snapshot _ => inferInstanceAs (Decidable (cur < LATEST - 1))
  | .link .. | .unlink .. | .move .. | .setContent .. | .setTarget .. | .setRdev .. | .setContentSeed ..
  | .setAttr .. | .setTime .. | .setContentConfig .. => inferInstanceAs (Decidable True)

/-- Every node has an allocated id and a type the store knows. -/
def View.Within (v : View) (next : UInt64) : Prop :=
  ∀ id r, v.node id = some r → (1 ≤ id ∧ id < next) ∧ ∃ t : FType, r.type = t.code

namespace FileSys

structure Inv (a : FileSys) : Prop where
  next_lo : 2 ≤ a.next
  next_hi : a.next ≤ SNAP_BIT
  cur_lo : 1 ≤ a.cur
  cur_hi : a.cur < LATEST
  cons : ∀ g, (a.viewOf g).Consistent
  acyc : ∀ g, (a.viewOf g).Acyclic
  ids : ∀ g, (a.viewOf g).Within a.next
  exist : ∀ {id}, 1 ≤ id → id < a.next → ∃ r, a.live.node id = some r
  snaps : ∀ {g}, (a.snaps g).isSome ↔ 1 ≤ g ∧ g < a.cur

namespace Inv

variable {a : FileSys}

theorem viewOf_cur (a : FileSys) : a.viewOf a.cur = a.live := by
  simp [viewOf]

theorem live_cons (h : a.Inv) : a.live.Consistent := viewOf_cur a ▸ h.cons a.cur

theorem live_acyc (h : a.Inv) : a.live.Acyclic := viewOf_cur a ▸ h.acyc a.cur

theorem next_free (h : a.Inv) : a.live.node a.next = none := by
  cases hn : a.live.node a.next with
  | none => rfl
  | some r =>
    rw [← viewOf_cur a] at hn
    exact absurd (h.ids _ _ _ hn).1.2 (lt_irrefl _)

theorem live_ids (h : a.Inv) {id : UInt64} {r : NodeRec} (hr : a.live.node id = some r) :
    (1 ≤ id ∧ id < a.next) ∧ ∃ t : FType, r.type = t.code := by
  rw [← viewOf_cur a] at hr
  exact h.ids _ _ _ hr

/-- An invariant of each view survives a change of the live view alone. -/
theorem forall_viewOf {P : View → Prop} {b : FileSys} (hcur : b.cur = a.cur) (hpast : b.past = a.past)
    (h : ∀ g, P (a.viewOf g)) (hl : P b.live) (g : SnapId) : P (b.viewOf g) := by
  have hg := h g
  unfold viewOf at hg ⊢
  rw [hcur, hpast]
  split_ifs with hlt
  · simpa [hlt] using hg
  · exact hl

theorem init : FileSys.init.Inv := by
  have hent : ∀ g d n, (FileSys.init.viewOf g).entry d n = none := by
    intro g d n
    simp only [viewOf]
    split_ifs <;> rfl
  have hup : ∀ g c d n, ¬ (FileSys.init.viewOf g).up c d n := by
    intro g c d n
    simp only [viewOf]
    split_ifs <;> exact id
  refine ⟨by decide, by decide, by decide, by decide, fun g => ?_, fun g d hd => ?_, fun g id r hr => ?_,
    fun {id} h1 h2 => ?_, fun {g} => ?_⟩
  · exact ⟨fun {d n c} => by simp [hent, hup], fun {d n c} he => by simp [hent] at he,
      fun {d n c} he => by simp [hent] at he⟩
  · obtain ⟨c, ⟨-, n, he⟩, -⟩ := Relation.TransGen.head'_iff.mp hd
    simp [hent] at he
  · simp only [viewOf] at hr
    split_ifs at hr
    · simp [FileSys.init] at hr
    · simp only [FileSys.init, ite_eq_iff, Option.some.injEq, reduceCtorEq, and_false, or_false] at hr
      obtain ⟨rfl, rfl⟩ := hr
      exact ⟨by decide, .DIR, rfl⟩
  · have : id = 1 := by
      simp only [FileSys.init] at h2
      grind
    simp [FileSys.init, this]
  · simp only [FileSys.init]
    grind

theorem alloc (h : a.Inv) (hf : a.next < SNAP_BIT) (t : FType) (blob : Bytes) (spec : UInt64) :
    (a.alloc t blob spec).2.Inv := by
  have hfree := h.next_free
  have hlt : a.next < a.next + 1 := by
    have := h.next_hi
    simp only [SNAP_BIT] at this hf
    grind
  refine ⟨?_, ?_, h.cur_lo, h.cur_hi, ?_, ?_, ?_, ?_, h.snaps⟩
  · have := h.next_lo
    exact le_trans this (le_of_lt hlt)
  · simp only [FileSys.alloc, SNAP_BIT] at hf ⊢
    grind
  · exact forall_viewOf (a := a) rfl rfl h.cons (h.live_cons.alloc hfree)
  · exact forall_viewOf (a := a) rfl rfl h.acyc (h.live_acyc.alloc h.live_cons hfree)
  · intro g
    refine forall_viewOf (a := a) (b := (a.alloc t blob spec).2) (P := fun v => v.Within (a.next + 1))
      rfl rfl (fun g id r hr => ?_) (fun id r hr => ?_) g
    · obtain ⟨⟨h1, h2⟩, ht⟩ := h.ids _ _ _ hr
      exact ⟨⟨h1, lt_trans h2 hlt⟩, ht⟩
    · simp only [FileSys.alloc, View.alloc] at hr
      split_ifs at hr with hi
      · obtain rfl := Option.some.inj hr
        refine ⟨⟨?_, hi ▸ hlt⟩, t, rfl⟩
        have := h.next_lo
        grind
      · obtain ⟨⟨h1, h2⟩, ht⟩ := h.live_ids hr
        exact ⟨⟨h1, lt_trans h2 hlt⟩, ht⟩
  · intro id h1 h2
    by_cases hi : id = a.next
    · exact ⟨a.newRec t blob spec, by simp [FileSys.alloc, View.alloc, hi]⟩
    · obtain ⟨r, hr⟩ := h.exist h1 (by simp only [FileSys.alloc] at h2; grind)
      exact ⟨r, by simp [FileSys.alloc, View.alloc, hi, hr]⟩

theorem change (h : a.Inv) {w : View} (hc : View.Change a.live w) : Inv { a with live := w } := by
  obtain ⟨hcons, hacyc⟩ := hc.sound h.live_cons h.live_acyc
  refine ⟨h.next_lo, h.next_hi, h.cur_lo, h.cur_hi, forall_viewOf (a := a) rfl rfl h.cons hcons,
    forall_viewOf (a := a) rfl rfl h.acyc hacyc, fun g => ?_, fun {id} h1 h2 => ?_, h.snaps⟩
  · refine forall_viewOf (a := a) (b := { a with live := w }) (P := fun v => v.Within a.next)
      rfl rfl h.ids (fun id r hr => ?_) g
    have ht := hc.types id
    rw [hr, Option.map_some, eq_comm, Option.map_eq_some_iff] at ht
    obtain ⟨r', hr', hty⟩ := ht
    rw [← hty]
    exact h.live_ids hr'
  · rw [View.exists_node_of_type (hc.types id)]
    exact h.exist h1 h2

/-- Sealing changes no view. -/
theorem viewOf_snapshot (hf : a.cur < LATEST - 1) {label : Bytes} (g : SnapId) :
    (a.exec (.snapshot label)).2.viewOf g = a.viewOf g := by
  simp only [LATEST] at hf
  simp only [FileSys.exec, viewOf]
  grind

theorem snapshot (h : a.Inv) (hf : a.cur < LATEST - 1) (label : Bytes) :
    (a.exec (.snapshot label)).2.Inv := by
  have hlt : a.cur < a.cur + 1 := by
    simp only [LATEST] at hf
    grind
  have hview : ∀ g, (a.exec (.snapshot label)).2.viewOf g = a.viewOf g := viewOf_snapshot hf
  refine ⟨h.next_lo, h.next_hi, ?_, ?_, fun g => hview g ▸ h.cons g, fun g => hview g ▸ h.acyc g,
    fun g id r hr => h.ids g id r (hview g ▸ hr), h.exist, fun {g} => ?_⟩
  · exact le_trans h.cur_lo (le_of_lt hlt)
  · simp only [FileSys.exec, LATEST] at hf ⊢
    grind
  · have hs := h.snaps (g := g)
    have hlo := h.cur_lo
    simp only [FileSys.exec]
    split_ifs with hg
    · subst hg
      simp [hlo, hlt]
    · rw [hs]
      grind

theorem exec (h : a.Inv) {op : Op} (hf : op.Fits a.next a.cur) : (a.exec op).2.Inv := by
  cases op with
  | mkdir => exact h.alloc hf ..
  | mkfile c => exact h.alloc hf ..
  | symlink t => exact h.alloc hf ..
  | mkfifo => exact h.alloc hf ..
  | mksock => exact h.alloc hf ..
  | mknod t maj min => exact h.alloc hf ..
  | snapshot label => exact h.snapshot hf label
  | setTime t => exact ⟨h.next_lo, h.next_hi, h.cur_lo, h.cur_hi, h.cons, h.acyc, h.ids, h.exist, h.snaps⟩
  | setContentConfig b =>
    exact ⟨h.next_lo, h.next_hi, h.cur_lo, h.cur_hi, h.cons, h.acyc, h.ids, h.exist, h.snaps⟩
  | link dir name child => exact h.change (View.linkOp_change ..)
  | unlink dir name => exact h.change (View.unlinkOp_change ..)
  | move sdir sn ddir dn => exact h.change (View.moveOp_change ..)
  | setContent reg c => exact h.change (View.setOp_change _ _ _ ⟨fun _ => rfl, fun _ => rfl⟩)
  | setTarget lnk t => exact h.change (View.setOp_change _ _ _ ⟨fun _ => rfl, fun _ => rfl⟩)
  | setRdev dev maj min => exact h.change (View.setOp_change _ _ _ ⟨fun _ => rfl, fun _ => rfl⟩)
  | setContentSeed reg seed => exact h.change (View.setOp_change _ _ _ ⟨fun _ => rfl, fun _ => rfl⟩)
  | setAttr n s => exact h.change (.modify s.keeps)

end Inv

end FileSys

end Prfs
