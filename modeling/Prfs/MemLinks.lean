import Prfs.MemRead

namespace Prfs

variable {cur g : SnapId} {l : List LinkIv} {iv : LinkIv}

/-- A lifetime that has begun, and ended if it has ended, by the current snapshot. -/
structure LinkIv.Ok (cur : SnapId) (iv : LinkIv) : Prop where
  born_pos : 1 ≤ iv.born
  born_le : iv.born ≤ cur
  dead : iv.dead = 0 ∨ iv.born < iv.dead ∧ iv.dead ≤ cur

/-- The lifetimes of one name: each ends before the next begins. -/
structure IvsOk (cur : SnapId) (l : List LinkIv) : Prop where
  each : ∀ iv ∈ l, iv.Ok cur
  apart : l.Pairwise (fun a b => a.dead ≠ 0 ∧ a.dead ≤ b.born)

theorem liveAt_iff : liveAt iv g = true ↔ iv.born ≤ g ∧ (iv.dead = 0 ∨ g < iv.dead) := by
  simp [liveAt]

theorem LinkIv.Ok.liveAt_iff (h : iv.Ok cur) (hg : cur ≤ g) : liveAt iv g = true ↔ iv.dead = 0 := by
  rw [Prfs.liveAt_iff]
  refine ⟨fun ⟨_, hd⟩ => ?_, fun hd => ⟨le_trans h.born_le hg, Or.inl hd⟩⟩
  rcases hd with hd | hd
  · exact hd
  · exact h.dead.resolve_right fun hh => absurd (lt_of_lt_of_le hd hh.2) (not_lt.mpr hg)

theorem LinkIv.Ok.mono (h : iv.Ok cur) {cur' : SnapId} (hc : cur ≤ cur') : iv.Ok cur' :=
  ⟨h.born_pos, le_trans h.born_le hc, h.dead.imp_right fun hd => ⟨hd.1, le_trans hd.2 hc⟩⟩

namespace IvsOk

theorem nil : IvsOk cur [] := ⟨by simp, .nil⟩

theorem tail (h : IvsOk cur (iv :: l)) : IvsOk cur l :=
  ⟨fun x hx => h.each x (List.mem_cons_of_mem _ hx), (List.pairwise_cons.mp h.apart).2⟩

theorem mono (h : IvsOk cur l) {cur' : SnapId} (hc : cur ≤ cur') : IvsOk cur' l :=
  ⟨fun x hx => (h.each x hx).mono hc, h.apart⟩

/-- A live lifetime is the last one. -/
theorem tail_nil (h : IvsOk cur (iv :: l)) (hl : liveAt iv cur = true) : l = [] := by
  cases l with
  | nil => rfl
  | cons b l =>
    have hd := (h.each iv (by simp)).liveAt_iff le_rfl |>.mp hl
    exact absurd hd ((List.pairwise_cons.mp h.apart).1 b (by simp)).1

theorem liveIv_live (h : IvsOk cur l) (hg : cur ≤ g) : liveIv l g = liveIv l cur := by
  have hf : l.filter (fun iv => liveAt iv g) = l.filter (fun iv => liveAt iv cur) := by
    refine List.filter_congr fun x hx => ?_
    rw [Bool.eq_iff_iff, (h.each x hx).liveAt_iff hg, (h.each x hx).liveAt_iff le_rfl]
  rw [liveIv, liveIv, ← List.head?_filter, hf, List.head?_filter]

theorem liveAtR_live (h : IvsOk cur l) (hg : cur ≤ g) : liveAtR l g = liveAtR l cur := by
  rw [liveAtR, liveAtR, h.liveIv_live hg]

/-- At most one lifetime is live in a view. -/
theorem filter_live (h : IvsOk cur l) (g : SnapId) :
    l.filter (fun iv => liveAt iv g) = (liveIv l g).toList := by
  induction l with
  | nil => rfl
  | cons iv l ih =>
    have ht := ih h.tail
    unfold liveIv at ht ⊢
    cases hl : liveAt iv g with
    | false => simpa [hl] using ht
    | true =>
      have hn : l.filter (fun iv => liveAt iv g) = [] := by
        refine List.filter_eq_nil_iff.mpr fun b hb hbl => ?_
        obtain ⟨hd, hle⟩ := (List.pairwise_cons.mp h.apart).1 b hb
        have h1 := (liveAt_iff.mp hl).2.resolve_left hd
        exact absurd (lt_of_lt_of_le h1 (le_trans hle (liveAt_iff.mp hbl).1)) (lt_irrefl g)
      simp [hl, hn]

section Open

variable {child : UInt64}

theorem born (h : IvsOk cur l) (hpos : 1 ≤ cur) (hn : liveAtR l cur = none) : IvsOk cur (l ++ [⟨cur, 0, child⟩]) := by
  have hdead : ∀ a ∈ l, a.dead ≠ 0 ∧ a.dead ≤ cur := by
    intro a ha
    have hnl : liveAt a cur ≠ true :=
      List.find?_eq_none.mp (Option.map_eq_none_iff.mp hn) a ha
    have hne : a.dead ≠ 0 := fun hd => hnl ((h.each a ha).liveAt_iff le_rfl |>.mpr hd)
    exact ⟨hne, ((h.each a ha).dead.resolve_left hne).2⟩
  refine ⟨fun x hx => ?_, List.pairwise_append.mpr ⟨h.apart, List.pairwise_singleton .., fun a ha b hb => ?_⟩⟩
  · rcases List.mem_append.mp hx with hx | hx
    · exact h.each x hx
    · obtain rfl := List.mem_singleton.mp hx
      exact ⟨hpos, le_rfl, Or.inl rfl⟩
  · obtain rfl := List.mem_singleton.mp hb
    exact hdead a ha

theorem liveAtR_born_old (hg : g < cur) : liveAtR (l ++ [⟨cur, 0, child⟩]) g = liveAtR l g := by
  have hnew : liveAt ⟨cur, 0, child⟩ g = false := by simp [liveAt, not_le.mpr hg]
  simp [liveAtR, liveIv, List.find?_append, hnew]

theorem liveAtR_born_live (h : IvsOk cur l) (hn : liveAtR l cur = none) (hg : cur ≤ g) :
    liveAtR (l ++ [⟨cur, 0, child⟩]) g = some child := by
  have hnew : liveAt ⟨cur, 0, child⟩ g = true := by simp [liveAt, hg]
  have hno : l.find? (fun iv => liveAt iv g) = none := by
    rw [← h.liveAtR_live hg] at hn
    exact Option.map_eq_none_iff.mp hn
  simp [liveAtR, liveIv, List.find?_append, hno, hnew]

end Open

section Close

theorem mem_closeLive {b : LinkIv} (hb : b ∈ closeLive cur l) : ∃ a ∈ l, b.born = a.born := by
  induction l with
  | nil => simp [closeLive] at hb
  | cons iv l ih =>
    unfold closeLive at hb
    split_ifs at hb
    · exact ⟨b, List.mem_cons_of_mem _ hb, rfl⟩
    · rcases List.mem_cons.mp hb with rfl | hb
      · exact ⟨iv, by simp, rfl⟩
      · exact ⟨b, List.mem_cons_of_mem _ hb, rfl⟩
    · rcases List.mem_cons.mp hb with rfl | hb
      · exact ⟨b, by simp, rfl⟩
      · obtain ⟨a, ha, he⟩ := ih hb
        exact ⟨a, List.mem_cons_of_mem _ ha, he⟩

theorem close (h : IvsOk cur l) : IvsOk cur (closeLive cur l) := by
  induction l with
  | nil => exact h
  | cons iv l ih =>
    have hiv := h.each iv (by simp)
    unfold closeLive
    split_ifs with hl hb
    · exact h.tail
    · obtain rfl := h.tail_nil hl
      refine ⟨fun x hx => ?_, List.pairwise_singleton ..⟩
      obtain rfl := List.mem_singleton.mp hx
      exact ⟨hiv.born_pos, hiv.born_le, Or.inr ⟨lt_of_le_of_ne hiv.born_le hb, le_rfl⟩⟩
    · have ht := ih h.tail
      refine ⟨fun x hx => ?_, List.pairwise_cons.mpr ⟨fun b hb => ?_, ht.apart⟩⟩
      · rcases List.mem_cons.mp hx with rfl | hx
        · exact hiv
        · exact ht.each x hx
      · obtain ⟨a, ha, he⟩ := mem_closeLive hb
        rw [he]
        exact (List.pairwise_cons.mp h.apart).1 a ha

theorem liveAtR_close_old (h : IvsOk cur l) (hg : g < cur) : liveAtR (closeLive cur l) g = liveAtR l g := by
  induction l with
  | nil => rfl
  | cons iv l ih =>
    unfold closeLive
    split_ifs with hl hb
    · obtain rfl := h.tail_nil hl
      have hno : liveAt iv g = false := by simp [liveAt, hb, not_le.mpr hg]
      simp [liveAtR, liveIv, hno]
    · obtain rfl := h.tail_nil hl
      have hd := (h.each iv (by simp)).liveAt_iff le_rfl |>.mp hl
      have he : liveAt { iv with dead := cur } g = liveAt iv g := by simp [liveAt, hd, hg]
      cases hv : liveAt iv g <;> simp [liveAtR, liveIv, he, hv]
    · have ht := ih h.tail
      unfold liveAtR liveIv at ht ⊢
      cases hv : liveAt iv g <;> simp [hv, ht]

theorem liveAtR_close_live (h : IvsOk cur l) (hpos : 1 ≤ cur) (hg : cur ≤ g) : liveAtR (closeLive cur l) g = none := by
  induction l with
  | nil => rfl
  | cons iv l ih =>
    unfold closeLive
    split_ifs with hl hb
    · obtain rfl := h.tail_nil hl
      rfl
    · obtain rfl := h.tail_nil hl
      have hno : liveAt { iv with dead := cur } g = false := by
        have hne : cur ≠ 0 := by
          rintro rfl
          exact absurd hpos (by decide)
        simp [liveAt, hne, hg]
      simp [liveAtR, liveIv, hno]
    · have hno : liveAt iv g = false := by
        have hiv := h.each iv (by simp)
        rw [Bool.eq_false_iff, ne_eq, hiv.liveAt_iff hg, ← hiv.liveAt_iff le_rfl]
        simpa using hl
      have ht := ih h.tail
      unfold liveAtR liveIv at ht ⊢
      simp only [List.find?_cons, hno]
      exact ht

end Close

end IvsOk

end Prfs
