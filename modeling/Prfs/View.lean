import Prfs.NodeRec
import Prfs.Search
import Mathlib.Data.Set.Card

namespace Prfs

/-- One view of a file system: its nodes, its directory entries and, kept beside
them, the containers of each node. -/
@[ext] structure View where
  node : UInt64 → Option NodeRec
  entry : UInt64 → Bytes → Option UInt64
  up : UInt64 → UInt64 → Bytes → Prop

namespace View

def IsDir (v : View) (id : UInt64) : Prop := ∃ r, v.node id = some r ∧ r.type = FType.DIR.code

/-- The entries of `c`: the pairs of a directory and a name bound to it. -/
def entriesOf (v : View) (c : UInt64) : Set (UInt64 × Bytes) := {p | v.entry p.1 p.2 = some c}

/-- A directory entry from one directory to another. -/
def Edge (v : View) (d c : UInt64) : Prop := v.IsDir c ∧ ∃ n, v.entry d n = some c

structure Consistent (v : View) : Prop where
  mirror : ∀ {d n c}, v.entry d n = some c ↔ v.up c d n
  dir : ∀ {d n c}, v.entry d n = some c → v.IsDir d
  child : ∀ {d n c}, v.entry d n = some c → ∃ r, v.node c = some r

def Acyclic (v : View) : Prop := ∀ d, ¬ Relation.TransGen v.Edge d d

/-- Link counts as numbers: the root has one link by fiat. -/
noncomputable def linkCount (v : View) (root c : UInt64) : Nat := (v.entriesOf c).ncard + if c = root then 1 else 0

def Counted (v : View) (root : UInt64) : Prop :=
  ∀ c, (v.entriesOf c).Finite ∧ ∀ r, v.node c = some r → r.nlink.toNat = v.linkCount root c

def modify (v : View) (id : UInt64) (f : NodeRec → NodeRec) : View :=
  { v with node := fun i => if i = id then (v.node i).map f else v.node i }

def alloc (v : View) (id : UInt64) (r : NodeRec) : View :=
  { v with node := fun i => if i = id then some r else v.node i }

def incLink (r : NodeRec) : NodeRec := { r with nlink := r.nlink + 1 }

def decLink (r : NodeRec) : NodeRec := if r.nlink ≠ 0 then { r with nlink := r.nlink - 1 } else r

def link (v : View) (dir : UInt64) (name : Bytes) (child : UInt64) : View :=
  { node := (v.modify child incLink).node
    entry := fun d n => if d = dir ∧ n = name then some child else v.entry d n
    up := fun c d n => (c = child ∧ d = dir ∧ n = name) ∨ v.up c d n }

def unlink (v : View) (dir : UInt64) (name : Bytes) (child : UInt64) : View :=
  { node := (v.modify child decLink).node
    entry := fun d n => if d = dir ∧ n = name then none else v.entry d n
    up := fun c d n => ¬ (c = child ∧ d = dir ∧ n = name) ∧ v.up c d n }

/-- A rewrite of a record that neither retypes the node nor touches its link count. -/
structure Keeps (f : NodeRec → NodeRec) : Prop where
  type : ∀ r, (f r).type = r.type
  nlink : ∀ r, (f r).nlink = r.nlink

theorem isDir_of_type {v w : View} (h : ∀ i, (w.node i).map NodeRec.type = (v.node i).map NodeRec.type)
    (id : UInt64) : w.IsDir id ↔ v.IsDir id := by
  have hh : ∀ u : View, u.IsDir id ↔ (u.node id).map NodeRec.type = some FType.DIR.code := by
    intro u
    simp [IsDir, Option.map_eq_some_iff]
  rw [hh, hh, h]

theorem modify_type {v : View} {id : UInt64} {f : NodeRec → NodeRec} (hf : ∀ r, (f r).type = r.type)
    (i : UInt64) : ((v.modify id f).node i).map NodeRec.type = (v.node i).map NodeRec.type := by
  unfold modify
  dsimp only
  split_ifs
  · cases v.node i <;> simp [hf]
  · rfl

theorem incLink_type (r : NodeRec) : (incLink r).type = r.type := rfl

theorem decLink_type (r : NodeRec) : (decLink r).type = r.type := by
  unfold decLink
  split_ifs <;> rfl

theorem link_isDir {v : View} {dir child : UInt64} {name : Bytes} (id : UInt64) :
    (v.link dir name child).IsDir id ↔ v.IsDir id :=
  isDir_of_type (fun i => modify_type incLink_type i) id

theorem unlink_isDir {v : View} {dir child : UInt64} {name : Bytes} (id : UInt64) :
    (v.unlink dir name child).IsDir id ↔ v.IsDir id :=
  isDir_of_type (fun i => modify_type decLink_type i) id

theorem exists_node_of_type {v w : View} {id : UInt64}
    (h : (w.node id).map NodeRec.type = (v.node id).map NodeRec.type) :
    (∃ r, w.node id = some r) ↔ ∃ r, v.node id = some r := by
  have hh : ∀ u : View, (∃ r, u.node id = some r) ↔ ((u.node id).map NodeRec.type).isSome := by
    intro u
    cases u.node id <;> simp
  rw [hh, hh, h]

theorem link_exists_node {v : View} {dir child : UInt64} {name : Bytes} (id : UInt64) :
    (∃ r, (v.link dir name child).node id = some r) ↔ ∃ r, v.node id = some r :=
  exists_node_of_type (modify_type incLink_type id)

theorem unlink_exists_node {v : View} {dir child : UInt64} {name : Bytes} (id : UInt64) :
    (∃ r, (v.unlink dir name child).node id = some r) ↔ ∃ r, v.node id = some r :=
  exists_node_of_type (modify_type decLink_type id)

theorem Consistent.link {v : View} (h : v.Consistent) {dir child : UInt64} {name : Bytes}
    (hd : v.IsDir dir) (hc : ∃ r, v.node child = some r) (hfree : v.entry dir name = none) :
    (v.link dir name child).Consistent := by
  have hent : ∀ {d n c}, (v.link dir name child).entry d n = some c →
      (c = child ∧ d = dir ∧ n = name) ∨ v.entry d n = some c := by
    intro d n c he
    simp only [View.link] at he
    split_ifs at he with hdn
    · exact Or.inl ⟨(Option.some.inj he).symm, hdn⟩
    · exact Or.inr he
  refine ⟨fun {d n c} => ⟨fun he => ?_, fun hu => ?_⟩, fun {d n c} he => ?_, fun {d n c} he => ?_⟩
  · exact (hent he).imp_right h.mirror.mp
  · rcases hu with ⟨rfl, rfl, rfl⟩ | hu
    · simp [View.link]
    · have he := h.mirror.mpr hu
      have hne : ¬ (d = dir ∧ n = name) := by
        rintro ⟨rfl, rfl⟩
        simp [hfree] at he
      simp [View.link, hne, he]
  · rw [link_isDir]
    rcases hent he with ⟨_, rfl, _⟩ | he
    · exact hd
    · exact h.dir he
  · rw [link_exists_node]
    rcases hent he with ⟨rfl, _, _⟩ | he
    · exact hc
    · exact h.child he

theorem unlink_entry {v : View} {dir child d c : UInt64} {name n : Bytes} :
    (v.unlink dir name child).entry d n = some c ↔ ¬ (d = dir ∧ n = name) ∧ v.entry d n = some c := by
  simp only [View.unlink]
  split_ifs with h <;> simp [h]

theorem Consistent.unlink {v : View} (h : v.Consistent) {dir child : UInt64} {name : Bytes}
    (he : v.entry dir name = some child) : (v.unlink dir name child).Consistent := by
  refine ⟨fun {d n c} => ?_, fun {d n c} hc => ?_, fun {d n c} hc => ?_⟩
  · rw [unlink_entry, h.mirror]
    show _ ↔ ¬ (c = child ∧ d = dir ∧ n = name) ∧ v.up c d n
    constructor
    · rintro ⟨hne, hu⟩
      exact ⟨fun hh => hne hh.2, hu⟩
    · rintro ⟨hne, hu⟩
      refine ⟨?_, hu⟩
      rintro ⟨rfl, rfl⟩
      have hcc : some c = some child := (h.mirror.mpr hu).symm.trans he
      exact hne ⟨Option.some.inj hcc, rfl, rfl⟩
  · rw [unlink_isDir]
    exact h.dir (unlink_entry.mp hc).2
  · rw [unlink_exists_node]
    exact h.child (unlink_entry.mp hc).2

theorem Consistent.modify {v : View} (h : v.Consistent) {id : UInt64} {f : NodeRec → NodeRec}
    (hf : ∀ r, (f r).type = r.type) : (v.modify id f).Consistent := by
  refine ⟨h.mirror, fun {d n c} he => ?_, fun {d n c} he => ?_⟩
  · rw [isDir_of_type (fun i => modify_type hf i)]
    exact h.dir he
  · rw [exists_node_of_type (modify_type hf c)]
    exact h.child he

theorem alloc_isDir {v : View} {id i : UInt64} {r : NodeRec} (h : v.IsDir i) (hn : v.node id = none) :
    (v.alloc id r).IsDir i := by
  obtain ⟨r', hr', ht⟩ := h
  have hne : i ≠ id := by
    rintro rfl
    simp [hn] at hr'
  exact ⟨r', by simp [View.alloc, hne, hr'], ht⟩

theorem Consistent.alloc {v : View} (h : v.Consistent) {id : UInt64} {r : NodeRec}
    (hn : v.node id = none) : (v.alloc id r).Consistent := by
  refine ⟨h.mirror, fun {d n c} he => alloc_isDir (h.dir he) hn, fun {d n c} he => ?_⟩
  obtain ⟨r', hr'⟩ := h.child he
  by_cases hc : c = id
  · exact ⟨r, by simp [View.alloc, hc]⟩
  · exact ⟨r', by simp [View.alloc, hc, hr']⟩

theorem Acyclic.link {v : View} (h : v.Acyclic) {dir child : UInt64} {name : Bytes}
    (hno : v.IsDir child → ¬ Relation.ReflTransGen v.Edge child dir) :
    (v.link dir name child).Acyclic := by
  have hstep : ∀ a b, (v.link dir name child).Edge a b → v.Edge a b ∨ (v.IsDir child ∧ a = dir ∧ b = child) := by
    rintro a b ⟨hb, n, he⟩
    rw [link_isDir] at hb
    simp only [View.link] at he
    split_ifs at he with hdn
    · obtain rfl := Option.some.inj he
      exact Or.inr ⟨hb, hdn.1, rfl⟩
    · exact Or.inl ⟨hb, n, he⟩
  by_cases hd : v.IsDir child
  · exact acyclic_insert_edge h (fun a b hab => (hstep a b hab).imp_right And.right) (hno hd)
  · exact acyclic_of_imp h (fun a b hab => (hstep a b hab).resolve_right (fun hh => hd hh.1))

theorem Acyclic.unlink {v : View} (h : v.Acyclic) {dir child : UInt64} {name : Bytes} :
    (v.unlink dir name child).Acyclic := by
  refine acyclic_of_imp h ?_
  rintro a b ⟨hb, n, he⟩
  rw [unlink_isDir] at hb
  exact ⟨hb, n, (unlink_entry.mp he).2⟩

theorem Acyclic.modify {v : View} (h : v.Acyclic) {id : UInt64} {f : NodeRec → NodeRec}
    (hf : ∀ r, (f r).type = r.type) : (v.modify id f).Acyclic := by
  refine acyclic_of_imp h ?_
  rintro a b ⟨hb, n, he⟩
  rw [isDir_of_type (fun i => modify_type hf i)] at hb
  exact ⟨hb, n, he⟩

theorem Acyclic.alloc {v : View} (h : v.Acyclic) (hc : v.Consistent) {id : UInt64} {r : NodeRec}
    (hn : v.node id = none) : (v.alloc id r).Acyclic := by
  refine acyclic_of_imp h ?_
  rintro a b ⟨⟨rb, hrb, hb⟩, n, he⟩
  obtain ⟨r', hr'⟩ := hc.child he
  have hne : b ≠ id := by
    rintro rfl
    simp [hn] at hr'
  exact ⟨⟨rb, by simpa [View.alloc, hne] using hrb, hb⟩, n, he⟩

theorem link_entriesOf {v : View} {dir child : UInt64} {name : Bytes} (hfree : v.entry dir name = none)
    (c : UInt64) : (v.link dir name child).entriesOf c =
      if c = child then insert (dir, name) (v.entriesOf c) else v.entriesOf c := by
  ext ⟨d, n⟩
  by_cases hdn : d = dir ∧ n = name
  · obtain ⟨rfl, rfl⟩ := hdn
    by_cases hc : c = child
    · simp [View.entriesOf, View.link, hc]
    · simp [View.entriesOf, View.link, hc, hfree, Ne.symm hc]
  · have hne : (d, n) ≠ (dir, name) := fun he => hdn (Prod.mk.inj he)
    have hent : (v.link dir name child).entry d n = v.entry d n := by
      simp only [View.link, hdn, if_false]
    by_cases hc : c = child
    · simp only [entriesOf, Set.mem_ofPred_eq, hent, hc, if_true, Set.mem_insert_iff, hne, false_or]
    · simp only [entriesOf, Set.mem_ofPred_eq, hent, hc, if_false]

theorem unlink_entriesOf {v : View} {dir child : UInt64} {name : Bytes} (c : UInt64) :
    (v.unlink dir name child).entriesOf c = v.entriesOf c \ {(dir, name)} := by
  ext ⟨d, n⟩
  simp only [entriesOf, Set.mem_ofPred_eq, unlink_entry, Set.mem_sdiff, Set.mem_singleton_iff,
    Prod.mk.injEq]
  tauto

theorem Counted.link {v : View} {root : UInt64} (h : v.Counted root) {dir child : UInt64} {name : Bytes}
    (hfree : v.entry dir name = none)
    (hfew : (v.link dir name child).linkCount root child < 2 ^ 32) :
    (v.link dir name child).Counted root := by
  have hnew : (dir, name) ∉ v.entriesOf child := by simp [entriesOf, hfree]
  intro c
  obtain ⟨hfin, hcount⟩ := h c
  rw [link_entriesOf hfree c]
  by_cases hc : c = child
  · subst hc
    have hlink : (v.link dir name c).linkCount root c = v.linkCount root c + 1 := by
      simp only [linkCount, link_entriesOf hfree c, if_true, Set.ncard_insert_of_notMem hnew hfin]
      omega
    refine ⟨by simpa only [if_true] using hfin.insert (dir, name), fun r hr => ?_⟩
    obtain ⟨r', hr', rfl⟩ : ∃ r', v.node c = some r' ∧ incLink r' = r := by
      simpa [View.link, View.modify] using hr
    have hn := hcount r' hr'
    rw [hlink] at hfew ⊢
    show (r'.nlink + 1).toNat = _
    rw [UInt32.toNat_add, hn]
    exact Nat.mod_eq_of_lt hfew
  · simp only [hc, if_false]
    refine ⟨hfin, fun r hr => ?_⟩
    have hr' : v.node c = some r := by simpa [View.link, View.modify, hc] using hr
    simpa [linkCount, link_entriesOf hfree c, hc] using hcount r hr'

theorem Counted.unlink {v : View} {root : UInt64} (h : v.Counted root) {dir child : UInt64} {name : Bytes}
    (he : v.entry dir name = some child) : (v.unlink dir name child).Counted root := by
  intro c
  obtain ⟨hfin, hcount⟩ := h c
  rw [unlink_entriesOf c]
  refine ⟨hfin.sdiff, fun r hr => ?_⟩
  by_cases hc : c = child
  · subst hc
    have hmem : (dir, name) ∈ v.entriesOf c := he
    obtain ⟨r', hr', rfl⟩ : ∃ r', v.node c = some r' ∧ decLink r' = r := by
      simpa [View.unlink, View.modify] using hr
    have hn := hcount r' hr'
    have hpos : 0 < (v.entriesOf c).ncard := Set.ncard_pos hfin |>.mpr ⟨_, hmem⟩
    have hdiff := Set.ncard_sdiff_singleton_of_mem hmem
    simp only [linkCount, unlink_entriesOf c, hdiff] at hn ⊢
    have hne : r'.nlink ≠ 0 := by
      intro h0
      rw [h0] at hn
      simp at hn
      omega
    simp only [decLink, hne, ne_eq, not_false_eq_true, if_true]
    rw [UInt32.toNat_sub_of_le]
    · simp only [hn, UInt32.toNat_one]
      omega
    · rw [UInt32.le_iff_toNat_le, hn, UInt32.toNat_one]
      omega
  · have hr' : v.node c = some r := by simpa [View.unlink, View.modify, hc] using hr
    have hnot : (dir, name) ∉ v.entriesOf c := by
      intro hm
      have : some child = some c := he.symm.trans hm
      exact hc (Option.some.inj this).symm
    simpa [linkCount, unlink_entriesOf c, Set.sdiff_singleton_eq_self hnot] using hcount r hr'

theorem Counted.modify {v : View} {root : UInt64} (h : v.Counted root) {id : UInt64}
    {f : NodeRec → NodeRec} (hf : ∀ r, (f r).nlink = r.nlink) : (v.modify id f).Counted root := by
  intro c
  obtain ⟨hfin, hcount⟩ := h c
  refine ⟨hfin, fun r hr => ?_⟩
  by_cases hc : c = id
  · obtain ⟨r', hr', rfl⟩ : ∃ r', v.node c = some r' ∧ f r' = r := by
      simpa [View.modify, hc] using hr
    rw [hf]
    exact hcount r' hr'
  · exact hcount r (by simpa [View.modify, hc] using hr)

theorem Counted.alloc {v : View} {root : UInt64} (h : v.Counted root) (hcons : v.Consistent)
    {id : UInt64} {r : NodeRec} (hn : v.node id = none) (hid : id ≠ root) (hr : r.nlink = 0) :
    (v.alloc id r).Counted root := by
  intro c
  obtain ⟨hfin, hcount⟩ := h c
  refine ⟨hfin, fun r' hr' => ?_⟩
  by_cases hc : c = id
  · subst hc
    have hemp : v.entriesOf c = ∅ := by
      ext ⟨d, n⟩
      simp only [entriesOf, Set.mem_ofPred_eq, Set.mem_empty_iff_false, iff_false]
      intro he
      obtain ⟨q, hq⟩ := hcons.child he
      simp [hn] at hq
    have : r' = r := by simpa [View.alloc, eq_comm] using hr'
    subst this
    have hsame : (v.alloc c r').entriesOf c = ∅ := hemp
    simp [linkCount, hsame, hid, hr]
  · exact hcount r' (by simpa [View.alloc, hc] using hr')

end View

end Prfs
