import Prfs.OrdMap

namespace Prfs

/-- A position in an ordered map: the entries before it, nearest first, and
those from it on. No entry from it on means the end position. -/
structure Cursor (K V : Type) where
  before : List (K × V)
  after : List (K × V)

namespace Cursor

variable {K V : Type}

def entry (c : Cursor K V) : Option (K × V) := c.after.head?

def valid (c : Cursor K V) : Bool := !c.after.isEmpty

def next (c : Cursor K V) : Cursor K V :=
  match c.after with
  | [] => c
  | e :: es => ⟨e :: c.before, es⟩

def prev (c : Cursor K V) : Cursor K V :=
  match c.before with
  | [] => ⟨c.after.reverse, []⟩
  | e :: es => ⟨es, e :: c.after⟩

def last (c : Cursor K V) : Cursor K V :=
  match c.after.reverse ++ c.before with
  | [] => ⟨[], []⟩
  | e :: es => ⟨es, [e]⟩

theorem prev_entry (c : Cursor K V) : c.prev.entry = c.before.head? := by
  unfold prev
  cases h : c.before <;> simp [entry]

theorem last_entry (c : Cursor K V) : c.last.entry = (c.before.reverse ++ c.after).getLast? := by
  have hr : c.after.reverse ++ c.before = (c.before.reverse ++ c.after).reverse := by simp
  unfold last
  rw [hr]
  cases h : (c.before.reverse ++ c.after).reverse with
  | nil => simp [entry, List.reverse_eq_nil_iff.mp h]
  | cons e es =>
    have hl : (c.before.reverse ++ c.after).getLast? = some e := by
      rw [← List.head?_reverse, h]
      rfl
    simp [entry, hl]

end Cursor

theorem takeWhile_eq_filter {α : Type} {l : List α} {p : α → Bool}
    (h : l.Pairwise (fun a b => p b = true → p a = true)) : l.takeWhile p = l.filter p := by
  induction l with
  | nil => rfl
  | cons a l ih =>
    obtain ⟨ha, hl⟩ := List.pairwise_cons.mp h
    cases hp : p a with
    | true => simp [hp, ih hl]
    | false =>
      have hn : l.filter p = [] := by
        refine List.filter_eq_nil_iff.mpr (fun b hb hpb => ?_)
        exact absurd (ha b hb hpb) (by simp [hp])
      simp [hp, hn]

theorem dropWhile_eq_filter {α : Type} {l : List α} {p : α → Bool}
    (h : l.Pairwise (fun a b => p b = true → p a = true)) :
    l.dropWhile p = l.filter (fun a => !p a) := by
  induction l with
  | nil => rfl
  | cons a l ih =>
    obtain ⟨ha, hl⟩ := List.pairwise_cons.mp h
    cases hp : p a with
    | true => simp [hp, ih hl]
    | false =>
      have hn : l.filter (fun a => !p a) = l := by
        refine List.filter_eq_self.mpr (fun b hb => ?_)
        cases hpb : p b with
        | true => exact absurd (ha b hb hpb) (by simp [hp])
        | false => rfl
      simp [hp, hn]

namespace OrdMap

variable {K V : Type} [LinearOrder K]

def first (m : OrdMap K V) : Cursor K V := ⟨[], m.entries⟩

/-- The position of the least key that is not below `k`. -/
def seek (m : OrdMap K V) (k : K) : Cursor K V :=
  ⟨(m.entries.takeWhile (fun e => e.1 < k)).reverse, m.entries.dropWhile (fun e => e.1 < k)⟩

theorem entries_below_closed (m : OrdMap K V) (k : K) :
    m.entries.Pairwise (fun a b => decide (b.1 < k) = true → decide (a.1 < k) = true) := by
  refine m.sorted.imp ?_
  intro a b hab hb
  simp only [decide_eq_true_eq] at hb ⊢
  exact lt_trans hab hb

theorem seek_after (m : OrdMap K V) (k : K) :
    (m.seek k).after = m.entries.filter (fun e => k ≤ e.1) := by
  have hh := dropWhile_eq_filter (m.entries_below_closed k)
  simp only [seek, hh]
  refine List.filter_congr (fun e _ => ?_)
  simp [← not_lt]

theorem seek_before (m : OrdMap K V) (k : K) :
    (m.seek k).before = (m.entries.filter (fun e => e.1 < k)).reverse := by
  simp only [seek, takeWhile_eq_filter (m.entries_below_closed k)]

/-- Walking on from `seek k` while keys satisfy `p` meets exactly the entries with
`p`, when the keys with `p` are an interval that starts at `k`. -/
theorem seek_takeWhile (m : OrdMap K V) (k : K) (p : K → Bool)
    (hlow : ∀ x, p x = true → k ≤ x)
    (hint : ∀ x y, k ≤ x → x < y → p y = true → p x = true) :
    (m.seek k).after.takeWhile (fun e => p e.1) = m.entries.filter (fun e => p e.1) := by
  rw [seek_after]
  have hclosed : (m.entries.filter (fun e => decide (k ≤ e.1))).Pairwise
      (fun a b => p b.1 = true → p a.1 = true) := by
    refine List.Pairwise.imp_of_mem ?_ (m.sorted.filter (fun e => decide (k ≤ e.1)))
    intro a b ha _ hab hb
    have hka : k ≤ a.1 := by simpa using (List.mem_filter.mp ha).2
    exact hint a.1 b.1 hka hab hb
  rw [takeWhile_eq_filter hclosed, List.filter_filter]
  refine List.filter_congr (fun e _ => ?_)
  cases hp : p e.1 with
  | true => simp [hlow e.1 hp]
  | false => simp

/-- The entry with the greatest key that is not above `k`. -/
def floor (m : OrdMap K V) (k : K) : Option (K × V) :=
  (m.entries.filter (fun e => e.1 ≤ k)).getLast?

theorem sorted_getLast? {es : List (K × V)} (hs : es.Pairwise (fun a b => a.1 < b.1))
    {e : K × V} (h : es.getLast? = some e) {x : K × V} (hx : x ∈ es) : x.1 ≤ e.1 := by
  obtain ⟨init, rfl⟩ := List.getLast?_eq_some_iff.mp h
  rcases List.mem_append.mp hx with hx | hx
  · exact le_of_lt ((List.pairwise_append.mp hs).2.2 x hx e (by simp))
  · rw [List.mem_singleton.mp hx]

theorem floor_of_get {m : OrdMap K V} {k a : K} {v : V} (hg : m.get a = some v) (hak : a ≤ k) :
    ∃ e, m.floor k = some e ∧ a ≤ e.1 := by
  have ha : (a, v) ∈ m.entries.filter (fun e => decide (e.1 ≤ k)) :=
    List.mem_filter.mpr ⟨mem_iff_get.mpr hg, by simpa using hak⟩
  cases hl : m.floor k with
  | none => simp [List.getLast?_eq_none_iff.mp hl] at ha
  | some e => exact ⟨e, rfl, sorted_getLast? (m.sorted.filter _) hl ha⟩

theorem floor_eq_some_iff {m : OrdMap K V} {k a : K} {v : V} :
    m.floor k = some (a, v) ↔
      m.get a = some v ∧ a ≤ k ∧ ∀ b, a < b → b ≤ k → m.get b = none := by
  have hs : (m.entries.filter (fun e => decide (e.1 ≤ k))).Pairwise (fun a b => a.1 < b.1) :=
    m.sorted.filter _
  constructor
  · intro h
    have hm := List.mem_filter.mp (List.mem_of_getLast? h)
    refine ⟨mem_iff_get.mp hm.1, by simpa using hm.2, fun b hab hbk => ?_⟩
    rw [get_eq_none_iff]
    intro w hw
    have hb : (b, w) ∈ m.entries.filter (fun e => decide (e.1 ≤ k)) :=
      List.mem_filter.mpr ⟨hw, by simpa using hbk⟩
    exact absurd (sorted_getLast? hs h hb) (not_le.mpr hab)
  · rintro ⟨hg, hak, hmax⟩
    obtain ⟨e, hl, hle⟩ := floor_of_get hg hak
    obtain ⟨hm, hek⟩ := List.mem_filter.mp (List.mem_of_getLast? hl)
    have he := mem_iff_get.mp (show (e.1, e.2) ∈ m.entries from hm)
    rcases lt_or_eq_of_le hle with hlt | heq
    · rw [hmax e.1 hlt (by simpa using hek)] at he
      simp at he
    · rw [← heq, hg] at he
      rw [hl, heq, Option.some.inj he]

/-- Seek to `k`; step back unless the key found is `k` itself, or go to the last
entry when every key is below `k`: this lands on the floor of `k`. -/
theorem seek_back_entry (m : OrdMap K V) (k : K) (hit : K → Prop) [DecidablePred hit]
    (hhit : ∀ x, hit x ↔ x = k) :
    (match (m.seek k).entry with
      | some e => if hit e.1 then (m.seek k).entry else (m.seek k).prev.entry
      | none => (m.seek k).last.entry) = m.floor k := by
  have hsplit : (m.seek k).before.reverse ++ (m.seek k).after = m.entries := by
    simp [seek, List.takeWhile_append_dropWhile]
  cases he : (m.seek k).entry with
  | none =>
    -- every key is below `k`, so the floor is the last entry of the map
    have hnil : (m.seek k).after = [] := List.head?_eq_none_iff.mp he
    have hall : m.entries.filter (fun e => decide (e.1 ≤ k)) = m.entries := by
      refine List.filter_eq_self.mpr (fun e hm => ?_)
      have hne : e ∉ (m.seek k).after := by simp [hnil]
      rw [seek_after, List.mem_filter] at hne
      by_contra hc
      exact hne ⟨hm, by simpa using le_of_lt (by simpa using hc)⟩
    simp only [Cursor.last_entry, hsplit, floor, hall]
  | some e =>
    have hmem : e ∈ (m.seek k).after := List.mem_of_mem_head? (by simpa [Cursor.entry] using he)
    rw [seek_after, List.mem_filter] at hmem
    have hke : k ≤ e.1 := by simpa using hmem.2
    obtain ⟨rest, hafter⟩ := List.head?_eq_some_iff.mp he
    by_cases hek : e.1 = k
    · have hf : m.floor k = some (e.1, e.2) := by
        refine floor_eq_some_iff.mpr ⟨mem_iff_get.mp hmem.1, le_of_eq hek, fun b hb hbk => ?_⟩
        exact absurd hbk (not_le.mpr (hek ▸ hb))
      simp [(hhit e.1).mpr hek, hf]
    · have hno : ¬ hit e.1 := fun hh => hek ((hhit e.1).mp hh)
      have hlt : k < e.1 := lt_of_le_of_ne hke (Ne.symm hek)
      -- `e` is the least key from `k` on, so no key equals `k`
      have hbelow : m.entries.filter (fun x => decide (x.1 ≤ k)) =
          m.entries.filter (fun x => decide (x.1 < k)) := by
        refine List.filter_congr (fun x hx => ?_)
        have hxk : x.1 ≠ k := by
          intro hxk
          have hxa : x ∈ (m.seek k).after := by
            rw [seek_after, List.mem_filter]
            exact ⟨hx, by simp [hxk]⟩
          have hs : (m.seek k).after.Pairwise (fun a b => a.1 < b.1) := by
            rw [seek_after]
            exact m.sorted.filter _
          rw [hafter] at hxa hs
          rcases List.mem_cons.mp hxa with rfl | hxa
          · exact hek hxk
          · have := (List.pairwise_cons.mp hs).1 x hxa
            exact absurd (lt_trans hlt this) (by simp [hxk])
        simp [le_iff_lt_or_eq, hxk]
      simp only [hno, if_false, Cursor.prev_entry, seek_before, floor, hbelow, List.head?_reverse]

end OrdMap

end Prfs
