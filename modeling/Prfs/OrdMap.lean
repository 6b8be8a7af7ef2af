import Prfs.ByteOrder

namespace Prfs

/-- A finite map kept as its entries in ascending key order. -/
structure OrdMap (K V : Type) [LinearOrder K] where
  entries : List (K × V)
  sorted : entries.Pairwise (fun a b => a.1 < b.1)

namespace OrdMap

variable {K V : Type} [LinearOrder K]

def empty : OrdMap K V := ⟨[], List.Pairwise.nil⟩

def get (m : OrdMap K V) (k : K) : Option V :=
  (m.entries.find? (fun e => e.1 = k)).map Prod.snd

def insertEntry (k : K) (v : V) : List (K × V) → List (K × V)
  | [] => [(k, v)]
  | e :: es =>
    if k < e.1 then (k, v) :: e :: es
    else if k = e.1 then (k, v) :: es
    else e :: insertEntry k v es

theorem mem_insertEntry {k : K} {v : V} {es : List (K × V)} {e : K × V}
    (h : e ∈ insertEntry k v es) : e = (k, v) ∨ e ∈ es := by
  induction es with
  | nil => simpa [insertEntry] using h
  | cons x es ih =>
    unfold insertEntry at h
    split_ifs at h
    · simpa using h
    · rcases List.mem_cons.mp h with h | h
      · exact Or.inl h
      · exact Or.inr (List.mem_cons_of_mem _ h)
    · rcases List.mem_cons.mp h with rfl | h
      · exact Or.inr (by simp)
      · exact (ih h).imp_right (List.mem_cons_of_mem _)

theorem insertEntry_sorted {k : K} {v : V} {es : List (K × V)}
    (h : es.Pairwise (fun a b => a.1 < b.1)) :
    (insertEntry k v es).Pairwise (fun a b => a.1 < b.1) := by
  induction es with
  | nil => simp [insertEntry]
  | cons x es ih =>
    obtain ⟨hx, hes⟩ := List.pairwise_cons.mp h
    unfold insertEntry
    split_ifs with h1 h2
    · refine List.pairwise_cons.mpr ⟨?_, h⟩
      intro y hy
      rcases List.mem_cons.mp hy with rfl | hy
      · exact h1
      · exact lt_trans h1 (hx y hy)
    · subst h2
      exact List.pairwise_cons.mpr ⟨hx, hes⟩
    · refine List.pairwise_cons.mpr ⟨?_, ih hes⟩
      intro y hy
      rcases mem_insertEntry hy with rfl | hy
      · exact lt_of_le_of_ne (not_lt.mp h1) (fun he => h2 he.symm)
      · exact hx y hy

def put (m : OrdMap K V) (k : K) (v : V) : OrdMap K V :=
  ⟨insertEntry k v m.entries, insertEntry_sorted m.sorted⟩

def del (m : OrdMap K V) (k : K) : OrdMap K V :=
  ⟨m.entries.filter (fun e => e.1 ≠ k), m.sorted.filter _⟩

/-- Erase the entries whose value fails the test. -/
def filter (m : OrdMap K V) (p : V → Bool) : OrdMap K V :=
  ⟨m.entries.filter (fun e => p e.2), m.sorted.filter _⟩

theorem get_of_mem {m : OrdMap K V} {k : K} {v : V} (h : (k, v) ∈ m.entries) : m.get k = some v := by
  obtain ⟨es, hs⟩ := m
  induction es with
  | nil => simp at h
  | cons x es ih =>
    obtain ⟨hx, hes⟩ := List.pairwise_cons.mp hs
    rcases List.mem_cons.mp h with rfl | h
    · simp [get]
    · have hne : x.1 ≠ k := ne_of_lt (hx _ h)
      simpa [get, List.find?_cons, hne] using ih hes h

theorem mem_iff_get {m : OrdMap K V} {k : K} {v : V} : (k, v) ∈ m.entries ↔ m.get k = some v := by
  refine ⟨get_of_mem, fun h => ?_⟩
  obtain ⟨e, he, hv⟩ := Option.map_eq_some_iff.mp h
  have hk : e.1 = k := by simpa using List.find?_some he
  subst hk hv
  exact List.mem_of_find?_eq_some he

theorem get_eq_none_iff {m : OrdMap K V} {k : K} : m.get k = none ↔ ∀ v, (k, v) ∉ m.entries := by
  simp only [mem_iff_get]
  cases m.get k <;> simp

@[simp] theorem get_empty (k : K) : (empty : OrdMap K V).get k = none := rfl

theorem get_insertEntry (k k' : K) (v : V) (es : List (K × V))
    (hs : es.Pairwise (fun a b => a.1 < b.1)) :
    ((insertEntry k v es).find? (fun e => e.1 = k')).map Prod.snd =
      if k' = k then some v else (es.find? (fun e => e.1 = k')).map Prod.snd := by
  induction es with
  | nil => by_cases hk : k' = k <;> simp [insertEntry, hk, Ne.symm, eq_comm]
  | cons x es ih =>
    obtain ⟨hx, hes⟩ := List.pairwise_cons.mp hs
    unfold insertEntry
    split_ifs with h1 h2 h3 h4 h5
    · subst h2; simp
    · simp [List.find?_cons, Ne.symm h2]
    · subst h4; simp
    · subst h3
      simp [Ne.symm h4]
    · subst h5
      have hh := ih hes
      simp only [if_true] at hh
      simpa [List.find?_cons, Ne.symm h3] using hh
    · have hh := ih hes
      simp only [h5, if_false] at hh
      by_cases hxk : x.1 = k'
      · simp [hxk]
      · simpa [List.find?_cons, hxk] using hh

@[simp] theorem get_put (m : OrdMap K V) (k k' : K) (v : V) :
    (m.put k v).get k' = if k' = k then some v else m.get k' :=
  get_insertEntry k k' v m.entries m.sorted

@[simp] theorem get_del (m : OrdMap K V) (k k' : K) :
    (m.del k).get k' = if k' = k then none else m.get k' := by
  by_cases hk : k' = k
  · subst hk
    simp [get_eq_none_iff, del]
  · simp only [hk, if_false]
    cases hg : m.get k' with
    | none =>
      rw [get_eq_none_iff] at hg ⊢
      exact fun v hv => hg v (List.mem_of_mem_filter hv)
    | some v =>
      rw [← mem_iff_get] at hg ⊢
      exact List.mem_filter.mpr ⟨hg, by simpa using hk⟩

theorem get_filter {m : OrdMap K V} {p : V → Bool} {k : K} {v : V} :
    (m.filter p).get k = some v ↔ m.get k = some v ∧ p v = true := by
  rw [← mem_iff_get, ← mem_iff_get]
  exact List.mem_filter

theorem sorted_nodup {es : List (K × V)} (h : es.Pairwise (fun a b => a.1 < b.1)) : es.Nodup := by
  refine h.imp ?_
  rintro a b hab rfl
  exact lt_irrefl _ hab

/-- A strictly ascending list is determined by its members. -/
theorem sorted_ext {es fs : List (K × V)} (he : es.Pairwise (fun a b => a.1 < b.1))
    (hf : fs.Pairwise (fun a b => a.1 < b.1)) (h : ∀ e, e ∈ es ↔ e ∈ fs) : es = fs := by
  have hp := (List.perm_ext_iff_of_nodup (sorted_nodup he) (sorted_nodup hf)).mpr h
  exact List.Perm.eq_of_pairwise (fun _ _ _ _ hab hba => absurd hab (lt_asymm hba)) he hf hp

theorem get_foldl_put_isSome {α : Type} {key : α → K} {val : α → V} {l : List α} {k : K} (m : OrdMap K V) :
    ((l.foldl (fun out x => out.put (key x) (val x)) m).get k).isSome ↔
      (∃ x ∈ l, key x = k) ∨ (m.get k).isSome := by
  induction l generalizing m with
  | nil => simp
  | cons x l ih =>
    rw [List.foldl_cons, ih, get_put]
    by_cases hk : k = key x
    · simp [hk]
    · simp [hk, Ne.symm hk]

/-- Building a map from a sorted list gives back the list's bindings. -/
theorem get_foldl_put_sorted {l : List (K × V)} (hs : l.Pairwise (fun a b => a.1 < b.1)) {k : K} {v : V} :
    (l.foldl (fun out e => out.put e.1 e.2) empty).get k = some v ↔ (k, v) ∈ l := by
  suffices hg : ∀ m : OrdMap K V, (l.foldl (fun out e => out.put e.1 e.2) m).get k = some v ↔
      (k, v) ∈ l ∨ ((∀ w, (k, w) ∉ l) ∧ m.get k = some v) by
    simpa using hg empty
  induction l with
  | nil => simp
  | cons e l ih =>
    obtain ⟨he, hs⟩ := List.pairwise_cons.mp hs
    intro m
    rw [List.foldl_cons, ih hs, get_put]
    obtain ⟨a, b⟩ := e
    by_cases hk : k = a
    · subst hk
      have hno : ∀ w, (k, w) ∉ l := fun w hw => absurd (he (k, w) hw) (lt_irrefl k)
      simp [hno, eq_comm]
    · simp [hk]

theorem ext_get {m n : OrdMap K V} (h : ∀ k, m.get k = n.get k) : m = n := by
  have he : m.entries = n.entries := by
    refine sorted_ext m.sorted n.sorted ?_
    rintro ⟨k, v⟩
    rw [mem_iff_get, mem_iff_get, h]
  cases m; cases n; simpa using he

instance decidableEq [DecidableEq V] : DecidableEq (OrdMap K V) := fun m n =>
  decidable_of_iff (m.entries = n.entries) ⟨fun h => by cases m; cases n; simpa using h, congrArg _⟩

theorem put_put (m : OrdMap K V) (k : K) (v w : V) : (m.put k v).put k w = m.put k w := by
  refine ext_get fun k' => ?_
  simp only [get_put]
  split_ifs <;> rfl

theorem put_del (m : OrdMap K V) (k : K) (v : V) : (m.del k).put k v = m.put k v := by
  refine ext_get fun k' => ?_
  simp only [get_put, get_del]
  split_ifs <;> rfl

section Unique

variable {α : Type} {p : V → Prop} {f : V → α} {m m' : OrdMap K V} {k : K} {x : V}

/-- Among the values with `p`, no two entries agree on `f`. -/
def UniqueOn (p : V → Prop) (f : V → α) (m : OrdMap K V) : Prop :=
  ∀ k k' x x', m.get k = some x → m.get k' = some x' → p x → p x' → f x = f x' → k = k'

theorem uniqueOn_empty : UniqueOn p f (empty : OrdMap K V) := fun _ _ _ _ hx => absurd hx (by simp)

/-- Each entry that is left stands for one that was there. -/
theorem UniqueOn.mono (h : UniqueOn p f m)
    (hsub : ∀ k x, m'.get k = some x → p x → ∃ y, m.get k = some y ∧ p y ∧ f y = f x) : UniqueOn p f m' := by
  intro k k' x x' hx hx' hp hp' hf
  obtain ⟨y, hy, hpy, hfy⟩ := hsub k x hx hp
  obtain ⟨y', hy', hpy', hfy'⟩ := hsub k' x' hx' hp'
  exact h k k' y y' hy hy' hpy hpy' (by rw [hfy, hfy', hf])

theorem UniqueOn.put (h : UniqueOn p f m)
    (hnew : p x → ∀ k' x', m.get k' = some x' → p x' → f x = f x' → k' = k) : UniqueOn p f (m.put k x) := by
  intro i j y z hy hz hpy hpz hf
  rw [get_put] at hy hz
  split_ifs at hy hz with hi hj hj
  · rw [hi, hj]
  · cases hy
    rw [hi, hnew hpy j z hz hpz hf]
  · cases hz
    rw [hj, hnew hpz i y hy hpy hf.symm]
  · exact h i j y z hy hz hpy hpz hf

/-- An entry written again with the same value of `f`. -/
theorem UniqueOn.update {y : V} (h : UniqueOn p f m) (hy : m.get k = some y) (hp : p x → p y) (hf : f x = f y) :
    UniqueOn p f (m.put k x) :=
  h.put fun hx k' x' hx' hp' hff => h k' k x' y hx' hy hp' (hp hx) (by rw [← hff, hf])

theorem UniqueOn.del (h : UniqueOn p f m) : UniqueOn p f (m.del k) := by
  refine h.mono fun j x hx hp => ⟨x, ?_, hp, rfl⟩
  rw [get_del] at hx
  split_ifs at hx
  exact hx

theorem UniqueOn.filter {q : V → Bool} (h : UniqueOn p f m) : UniqueOn p f (m.filter q) :=
  h.mono fun _ x hx hp => ⟨x, (get_filter.mp hx).1, hp, rfl⟩

end Unique

end OrdMap

end Prfs
