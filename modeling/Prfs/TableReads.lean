import Mathlib.Data.Prod.Lex
import Mathlib.Order.Bounds.Basic
import Prfs.StoreWrites

namespace Prfs

/-- The snapshots not after `rg` under which `id` has a record. -/
def recorded (kv : Data) (id : UInt64) (rg : SnapId) : Set SnapId := {v | v ≤ rg ∧ (recAt kv id v).isSome}

/-- Whatever else is stored, range-back gives the record under the greatest such snapshot,
and fails exactly when there is none. -/
theorem range_back_exact (kv : Data) (hkeys : ∀ k v, kv.nodes.get k = some v → ∃ id snap, k = be id ++ be snap)
    (id : UInt64) (rg : SnapId) :
    (∀ r, loadNode kv id rg = some r ↔ ∃ v, IsGreatest (recorded kv id rg) v ∧ recAt kv id v = some r) ∧
      (loadNode kv id rg = none ↔ recorded kv id rg = ∅) := by
  -- the other tables play no part, so they may as well be empty
  have hw : Data.Wf { nodes := kv.nodes } := ⟨hkeys _ _, by simp, by simp, by simp⟩
  constructor
  · intro r
    refine (loadNode_eq_some_iff hw).trans ⟨?_, ?_⟩
    · rintro ⟨v, hv, hr, hmax⟩
      refine ⟨v, ⟨⟨hv, Option.isSome_of_eq_some hr⟩, fun w hw => ?_⟩, hr⟩
      by_contra hlt
      have hnone := hmax w (not_le.mp hlt) hw.1
      exact absurd hw.2 (by rw [show recAt kv id w = none from hnone]; simp)
    · rintro ⟨v, ⟨⟨hv, -⟩, hub⟩, hr⟩
      refine ⟨v, hv, hr, fun w hvw hwr => ?_⟩
      by_contra hsome
      exact absurd (hub ⟨hwr, Option.isSome_iff_ne_none.mpr hsome⟩) (not_le.mpr hvw)
  · refine (loadNode_eq_none_iff hw).trans ?_
    rw [Set.eq_empty_iff_forall_notMem]
    refine forall_congr' fun v => ?_
    constructor
    · rintro h ⟨hv, hs⟩
      rw [show recAt kv id v = none from h hv] at hs
      simp at hs
    · intro h hv
      by_contra hsome
      exact h ⟨hv, Option.isSome_iff_ne_none.mpr hsome⟩

/-- Two versions of a node between a later one of the node before it and an earlier one of the next. -/
def neighbours : Data :=
  storeNode (storeNode (storeNode (storeNode {} 1 9 {}) 2 3 { nlink := 1 }) 2 6 { nlink := 2 }) 3 1 {}

theorem Data.Wf.empty : Data.Wf {} := ⟨by simp, by simp, by simp, by simp⟩

theorem Data.Wf.neighbours : neighbours.Wf := (((empty.storeNode 1 9 {}).storeNode 2 3 _).storeNode 2 6 _).storeNode 3 1 {}

theorem range_back_exact_neighbours :
    (∀ r, loadNode neighbours 2 5 = some r ↔
      ∃ v, IsGreatest (recorded neighbours 2 5) v ∧ recAt neighbours 2 v = some r) ∧
    (loadNode neighbours 2 5 = none ↔ recorded neighbours 2 5 = ∅) :=
  range_back_exact neighbours (fun _ _ => Data.Wf.neighbours.node) 2 5

/-- Words and eight bytes read and write back to each other, and keys compare as the tuples they encode. -/
structure KeysFaithful : Prop where
  read : ∀ x, rdbe (be x) = x
  written : ∀ p : Bytes, p.length = 8 → be (rdbe p) = p
  order : ∀ (a b c d : UInt64) (x y : Bytes),
    be a ++ be b ++ x < be c ++ be d ++ y ↔ toLex (a, toLex (b, x)) < toLex (c, toLex (d, y))

/-- The keys of the link tables: two numbers, then a name, or a container and a name. -/
structure LinkKeys (kv : Data) : Prop where
  down : ∀ k v, kv.downLinks.get k = some v → ∃ dir ver name, k = be dir ++ be ver ++ name
  up : ∀ k v, kv.upLinks.get k = some v → ∃ node ver dir name, k = be node ++ be ver ++ be dir ++ name

/-- A scan of one link set yields its links, each once and in ascending byte order, and no other. -/
structure ScansExact (kv : Data) : Prop where
  down : ∀ dir ver name child, (name, child) ∈ scanDownlinks kv dir ver ↔ dnAt kv dir ver name = some child
  downSorted : ∀ dir ver, (scanDownlinks kv dir ver).Pairwise (fun a b => a.1 < b.1)
  up : ∀ node ver x, x ∈ scanUplinks kv node ver ↔ ∃ dir name, x = be dir ++ name ∧ upAt kv node ver dir name
  upSorted : ∀ node ver, (scanUplinks kv node ver).Pairwise (· < ·)

theorem key3_lt_iff {a b c d : UInt64} {x y : Bytes} :
    be a ++ be b ++ x < be c ++ be d ++ y ↔ toLex (a, toLex (b, x)) < toLex (c, toLex (d, y)) := by
  rw [append_lt_append_iff (by simp), key2_lt_iff, key2_inj, Prod.Lex.toLex_lt_toLex, Prod.Lex.toLex_lt_toLex]
  constructor
  · rintro ((h | ⟨h, h'⟩) | ⟨⟨h, h'⟩, hx⟩)
    · exact Or.inl h
    · exact Or.inr ⟨h, Or.inl h'⟩
    · exact Or.inr ⟨h, Or.inr ⟨h', hx⟩⟩
  · rintro (h | ⟨h, h' | ⟨h', hx⟩⟩)
    · exact Or.inl (Or.inl h)
    · exact Or.inl (Or.inr ⟨h, h'⟩)
    · exact Or.inr ⟨⟨h, h'⟩, hx⟩

theorem keysFaithful : KeysFaithful := ⟨rdbe_be, fun _ => be_rdbe, fun _ _ _ _ _ _ => key3_lt_iff⟩

theorem mem_scanUplinks_iff {kv : Data} (hkeys : LinkKeys kv) {node ver : UInt64} {x : Bytes} :
    x ∈ scanUplinks kv node ver ↔ ∃ dir name, x = be dir ++ name ∧ upAt kv node ver dir name := by
  rw [mem_scanUplinks]
  constructor
  · intro h
    obtain ⟨v, hv⟩ := Option.isSome_iff_exists.mp h
    obtain ⟨n, w, dir, name, hk⟩ := hkeys.up _ v hv
    rw [List.append_assoc _ (be dir), key3_inj] at hk
    refine ⟨dir, name, hk.2, ?_⟩
    unfold upAt
    rwa [List.append_assoc _ (be dir), ← hk.2]
  · rintro ⟨dir, name, rfl, h⟩
    unfold upAt at h
    rwa [List.append_assoc _ (be dir)] at h

theorem scans_exact (kv : Data) (hkeys : LinkKeys kv) : KeysFaithful ∧ ScansExact kv := by
  refine ⟨keysFaithful, ?_⟩
  constructor
  · exact fun dir ver name child => mem_scanDownlinks
  · exact scanDownlinks_sorted kv
  · exact fun node ver x => mem_scanUplinks_iff hkeys
  · exact scanUplinks_sorted kv

/-- Link sets next to each other, with an empty name, a name of the greatest byte and a name of zeros. -/
def oddNames : Data :=
  putUp (putDown (putDown (putDown {} (be 1 ++ be 1 ++ []) (be 5)) (be 1 ++ be 1 ++ [255]) (be 6))
    (be 1 ++ be 2 ++ be 0) (be 7)) (be 7 ++ be 2 ++ (be 1 ++ be 0))

theorem Data.Wf.oddNames : oddNames.Wf :=
  (((empty.putDown 1 1 [] 5).putDown 1 1 [255] 6).putDown 1 2 (be 0) 7).putUp 7 2 1 (be 0)

theorem Data.Wf.linkKeys {kv : Data} (h : kv.Wf) : LinkKeys kv where
  down k v hk := by
    obtain ⟨dir, ver, name, c, hkey, -⟩ := h.down hk
    exact ⟨dir, ver, name, hkey⟩
  up _ _ hk := h.up hk

theorem scans_exact_oddNames : KeysFaithful ∧ ScansExact oddNames := scans_exact oddNames Data.Wf.oddNames.linkKeys

end Prfs
