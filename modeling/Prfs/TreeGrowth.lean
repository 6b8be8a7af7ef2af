import Prfs.FileSysInv

namespace Prfs

namespace View

variable {v w x : View} {d c i : UInt64} {name : Bytes} {names more : List Bytes}

/-- A row of names leads down from one node to another. -/
inductive Path (v : View) : UInt64 → List Bytes → UInt64 → Prop
  | here {d : UInt64} : Path v d [] d
  | down {d c i : UInt64} {name : Bytes} {names : List Bytes} : v.entry d name = some c → Path v c names i → Path v d (name :: names) i

theorem Path.append (h : v.Path d names c) (h' : v.Path c more i) : v.Path d (names ++ more) i := by
  induction h with
  | here => exact h'
  | down he _ ih => exact .down he (ih h')

theorem Path.snoc (h : v.Path d names c) (he : v.entry c name = some i) : v.Path d (names ++ [name]) i :=
  h.append (.down he .here)

/-- `w` has the entries of `v` and more, and its nodes with their types and blobs. -/
structure Grows (v w : View) : Prop where
  entry : ∀ {d n c}, v.entry d n = some c → w.entry d n = some c
  node : ∀ {id r}, v.node id = some r → ∃ q, w.node id = some q ∧ q.type = r.type ∧ q.blob = r.blob

theorem Grows.refl : Grows v v := ⟨fun he => he, fun {_ r} hr => ⟨r, hr, rfl, rfl⟩⟩

theorem Grows.trans (h : Grows v w) (h' : Grows w x) : Grows v x := by
  refine ⟨fun he => h'.entry (h.entry he), fun hr => ?_⟩
  obtain ⟨q, hq, ht, hb⟩ := h.node hr
  obtain ⟨p, hp, ht', hb'⟩ := h'.node hq
  exact ⟨p, hp, ht'.trans ht, hb'.trans hb⟩

theorem Path.grows (h : v.Path d names i) (hg : Grows v w) : w.Path d names i := by
  induction h with
  | here => exact .here
  | down he _ ih => exact .down (hg.entry he) ih

theorem Grows.isDir (h : Grows v w) (hd : v.IsDir d) : w.IsDir d := by
  obtain ⟨r, hr, ht⟩ := hd
  obtain ⟨q, hq, hqt, -⟩ := h.node hr
  exact ⟨q, hq, hqt.trans ht⟩

theorem grows_alloc {r : NodeRec} (h : v.node i = none) : Grows v (v.alloc i r) := by
  refine ⟨fun he => he, fun {id q} hq => ⟨q, ?_, rfl, rfl⟩⟩
  have hne : id ≠ i := by
    rintro rfl
    rw [h] at hq
    cases hq
  show (if id = i then some r else v.node id) = some q
  rw [if_neg hne, hq]

theorem grows_modify {f : NodeRec → NodeRec} (ht : ∀ r, (f r).type = r.type) (hb : ∀ r, (f r).blob = r.blob) :
    Grows v (v.modify i f) := by
  refine ⟨fun he => he, fun {id r} hr => ?_⟩
  show ∃ q, (if id = i then (v.node id).map f else v.node id) = some q ∧ _
  rw [hr]
  split_ifs
  · exact ⟨f r, rfl, ht r, hb r⟩
  · exact ⟨r, rfl, rfl, rfl⟩

theorem grows_link (h : v.entry d name = none) : Grows v (v.link d name c) := by
  refine ⟨fun {e n x} he => ?_, (grows_modify incLink_type fun _ => rfl).node⟩
  have hne : ¬ (e = d ∧ n = name) := by
    rintro ⟨rfl, rfl⟩
    rw [h] at he
    cases he
  show (if e = d ∧ n = name then some c else v.entry e n) = some x
  rw [if_neg hne, he]

/-- A node that is not there yet can be made and linked in under a free name. -/
theorem linkError_new {r : NodeRec} (hc : v.Consistent) (hnew : v.node i = none) (hd : v.IsDir d) (hname : name ≠ SNAPSHOT_NAME)
    (hfree : v.entry d name = none) : (v.alloc i r).linkError d name i = .OK := by
  have hgrows := @grows_alloc v i r hnew
  have hnone : ∀ n x, v.entry i n ≠ some x := by
    intro n x he
    obtain ⟨q, hq, -⟩ := hc.dir he
    rw [hnew] at hq
    cases hq
  refine linkError_ok.mpr ⟨hname, hgrows.isDir hd, ⟨r, if_pos rfl⟩, fun _ hreach => ?_, hfree⟩
  rcases hreach.cases_head with heq | ⟨x, ⟨-, n, he⟩, -⟩
  · obtain ⟨q, hq, -⟩ := hd
    rw [← heq, hnew] at hq
    cases hq
  · exact hnone n x he

end View

end Prfs
