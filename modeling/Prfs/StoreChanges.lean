import Prfs.Host
import Prfs.StoreLink

namespace Prfs

section Records

variable {cur : SnapId} {kv : Data}

theorem loadNode_storeNode_self (id : UInt64) (r : NodeRec) : loadNode (storeNode kv id cur r) id cur = some r := by
  refine loadNode_floor_iff.mpr ⟨cur, le_refl _, serialize r, by simp [storeNode], by simp, fun k hlt hle => ?_⟩
  exact absurd hle (not_le.mpr hlt)

/-- A record lies on the way to no other node's. -/
theorem loadNode_storeNode_ne {id i : UInt64} (hi : i ≠ id) (r : NodeRec) :
    loadNode (storeNode kv id cur r) i cur = loadNode kv i cur := by
  have hget : ∀ v, (storeNode kv id cur r).nodes.get (be i ++ be v) = kv.nodes.get (be i ++ be v) := by
    intro v
    simp [storeNode, key2_inj, hi]
  have hbetween : ∀ v, v ≤ cur → ((∀ k, be i ++ be v < k → k ≤ be i ++ be cur →
        (storeNode kv id cur r).nodes.get k = none) ↔
      ∀ k, be i ++ be v < k → k ≤ be i ++ be cur → kv.nodes.get k = none) := by
    intro v hv
    have hk : ∀ k, be i ++ be v < k → k ≤ be i ++ be cur → k ≠ be id ++ be cur := by
      rintro k hlt hle rfl
      have h1 := key2_lt_iff.mp hlt
      have h2 := key2_le_iff.mp hle
      grind
    refine forall_congr' fun k => forall_congr' fun hlt => forall_congr' fun hle => ?_
    simp [storeNode, hk k hlt hle]
  ext x
  rw [loadNode_floor_iff, loadNode_floor_iff]
  constructor
  · rintro ⟨v, hv, y, hg, he, hmax⟩
    exact ⟨v, hv, y, by rwa [hget] at hg, he, (hbetween v hv).mp hmax⟩
  · rintro ⟨v, hv, y, hg, he, hmax⟩
    exact ⟨v, hv, y, by rwa [hget], he, (hbetween v hv).mpr hmax⟩

theorem foldl_putDown_nodes {α : Type} (key val : α → Bytes) (l : List α) (kv : Data) :
    (l.foldl (fun kv e => putDown kv (key e) (val e)) kv).nodes = kv.nodes := by
  induction l generalizing kv with
  | nil => rfl
  | cons e l ih => exact ih _

theorem foldl_putUp_tables {α : Type} (key : α → Bytes) (l : List α) (kv : Data) :
    (l.foldl (fun kv e => putUp kv (key e)) kv).nodes = kv.nodes ∧
      (l.foldl (fun kv e => putUp kv (key e)) kv).downLinks = kv.downLinks := by
  induction l generalizing kv with
  | nil => exact ⟨rfl, rfl⟩
  | cons e l ih => exact ih _

/-- A directory whose names are written at the current version, with or without an entry of the name. -/
def Holds (cur : SnapId) (kv : Data) (dir : UInt64) (name : Bytes) (b : Bool) : Prop :=
  (∃ r, loadNode kv dir cur = some r ∧ r.dnLinkVer = cur) ∧
    (kv.downLinks.get (be dir ++ be cur ++ name)).isSome = b

theorem ensureWritableDnLinks_load {dir i : UInt64} {dr r : NodeRec} (hd : loadNode kv dir cur = some dr)
    (hi : loadNode kv i cur = some r) :
    ∃ r', loadNode (ensureWritableDnLinks cur kv dir).2 i cur = some r' ∧
      r'.dnLinkVer = if i = dir then cur else r.dnLinkVer := by
  unfold ensureWritableDnLinks
  simp only [hd, Option.getD_some]
  split_ifs with hv he he
  · subst he
    exact ⟨dr, hd, hv⟩
  · exact ⟨r, hi, rfl⟩
  · subst he
    exact ⟨_, loadNode_storeNode_self _ _, rfl⟩
  · refine ⟨r, ?_, rfl⟩
    rw [loadNode_storeNode_ne he, loadNode, foldl_putDown_nodes]
    exact hi

theorem ensureWritableUpLinks_load {node i : UInt64} {r : NodeRec} (hi : loadNode kv i cur = some r) :
    ∃ r', loadNode (ensureWritableUpLinks cur kv node).2 i cur = some r' ∧ r'.dnLinkVer = r.dnLinkVer := by
  unfold ensureWritableUpLinks
  dsimp only
  split_ifs
  · exact ⟨r, hi, rfl⟩
  · by_cases he : i = node
    · subst he
      exact ⟨_, loadNode_storeNode_self _ _, by rw [hi, Option.getD_some]⟩
    · refine ⟨r, ?_, rfl⟩
      rw [loadNode_storeNode_ne he, loadNode, (foldl_putUp_tables _ _ _).1]
      exact hi

theorem writable_load {dir child i : UInt64} {dr r : NodeRec} (hd : loadNode kv dir cur = some dr)
    (hi : loadNode kv i cur = some r) :
    ∃ r', loadNode (writable cur kv dir child) i cur = some r' ∧
      r'.dnLinkVer = if i = dir then cur else r.dnLinkVer := by
  obtain ⟨r1, h1, hv1⟩ := ensureWritableDnLinks_load hd hi
  obtain ⟨r2, h2, hv2⟩ := @ensureWritableUpLinks_load cur _ child i r1 h1
  exact ⟨r2, h2, hv2.trans hv1⟩

/-- A record that keeps its version keeps what is held. -/
theorem Holds.storeNode {dir id : UInt64} {name : Bytes} {b : Bool} (h : Holds cur kv dir name b) {r : NodeRec}
    (hr : ∀ old, loadNode kv id cur = some old → r.dnLinkVer = old.dnLinkVer) :
    Holds cur (storeNode kv id cur r) dir name b := by
  obtain ⟨⟨dr, hd, hv⟩, hk⟩ := h
  refine ⟨?_, hk⟩
  by_cases he : dir = id
  · subst he
    exact ⟨r, loadNode_storeNode_self _ _, (hr dr hd).trans hv⟩
  · exact ⟨dr, by rw [loadNode_storeNode_ne he, hd], hv⟩

theorem addEdge_holds {dir child : UInt64} {name : Bytes} {dr cr : NodeRec} (hd : loadNode kv dir cur = some dr) :
    Holds cur (addEdge cur kv dir name child cr) dir name true := by
  obtain ⟨r', hl, hv⟩ := @writable_load cur kv dir child dir dr dr hd hd
  rw [if_pos rfl] at hv
  unfold addEdge
  dsimp only
  refine Holds.storeNode ⟨⟨r', ?_, hv⟩, by simp [putUp, putDown]⟩ fun old ho => ?_
  · simpa using hl
  · rw [ho, Option.getD_some]

theorem decLink_dnLinkVer {r : NodeRec} : (View.decLink r).dnLinkVer = r.dnLinkVer := by
  unfold View.decLink
  split_ifs <;> rfl

theorem dropEdge_holds {dir child : UInt64} {name : Bytes} {dr : NodeRec} (hd : loadNode kv dir cur = some dr) :
    Holds cur (dropEdge cur kv dir name child) dir name false := by
  obtain ⟨r', hl, hv⟩ := @writable_load cur kv dir child dir dr dr hd hd
  rw [if_pos rfl] at hv
  unfold dropEdge
  dsimp only
  refine Holds.storeNode ⟨⟨r', ?_, hv⟩, by simp [delUp, delDown]⟩ fun old ho => ?_
  · simpa using hl
  · rw [ho, Option.getD_some, decLink_dnLinkVer]

end Records

namespace PrfsStore

variable {s : PrfsStore}

/-- The checks of a link pass. -/
def Linkable (s : PrfsStore) (dir : UInt64) (name : Bytes) (child : UInt64) : Prop :=
  name ≠ SNAPSHOT_NAME ∧ ∃ dr cr, loadNode s.kv dir s.cur = some dr ∧ dr.type = FType.DIR.code ∧
    loadNode s.kv child s.cur = some cr ∧ ¬ (cr.type = FType.DIR.code ∧ reachable s.kv s.cur child dir = true) ∧
    dnAt s.kv dir dr.dnLinkVer name = none

/-- The name has a live entry. -/
def Unlinkable (s : PrfsStore) (dir : UInt64) (name : Bytes) : Prop :=
  ∃ dr c, loadNode s.kv dir s.cur = some dr ∧ dnAt s.kv dir dr.dnLinkVer name = some c

def Has (s : PrfsStore) (dir : UInt64) (name : Bytes) (b : Bool) : Prop := Holds s.cur s.kv dir name b

theorem Has.setAttr {dir : UInt64} {name : Bytes} {b : Bool} (h : s.Has dir name b) (n : Node) (a : Setter) :
    (s.setAttr n a).Has dir name b := by
  unfold PrfsStore.setAttr mutateNode
  split
  · exact h
  · next r hr =>
    refine Holds.storeNode h fun old ho => ?_
    obtain rfl : r = old := Option.some.inj (hr.symm.trans ho)
    cases a <;> rfl

theorem Has.touchDir {dir : UInt64} {name : Bytes} {b : Bool} (h : s.Has dir name b) (n : Node) :
    (touchDir s n).Has dir name b :=
  (h.setAttr n _).setAttr n _

theorem linkT_of_linkable {dir child : UInt64} {name : Bytes} (h : s.Linkable dir name child) :
    ∃ dr cr, loadNode s.kv dir s.cur = some dr ∧
      linkT s.cur s.kv dir name child = (.OK, addEdge s.cur s.kv dir name child cr) := by
  obtain ⟨hn, dr, cr, hd, ht, hc, hr, hg⟩ := h
  exact ⟨dr, cr, hd, by rw [linkT_eq]; simp [hn, hd, ht, hc, hr, hg]⟩

theorem linkT_of_not_linkable {dir child : UInt64} {name : Bytes} (h : ¬ s.Linkable dir name child) :
    (linkT s.cur s.kv dir name child).1 ≠ .OK ∧ (linkT s.cur s.kv dir name child).2 = s.kv := by
  rw [linkT_eq]
  split
  · simp
  · next hn =>
    split
    · simp
    · next dr hd =>
      split
      · simp
      · next ht =>
        split
        · simp
        · next cr hc =>
          split
          · simp
          · next hr =>
            split
            · simp
            · next hg => exact absurd ⟨hn, dr, cr, hd, not_not.mp ht, hc, hr, hg⟩ h

/-- Before a link its name is not there. -/
theorem Linkable.not_has {dir child : UInt64} {name : Bytes} (h : s.Linkable dir name child) :
    ¬ s.Has dir name true := by
  obtain ⟨-, dr, -, hd, -, -, -, hg⟩ := h
  rintro ⟨⟨r, hl, hv⟩, hk⟩
  obtain rfl : dr = r := Option.some.inj (hd.symm.trans hl)
  rw [dnAt, hv, Option.map_eq_none_iff] at hg
  rw [hg] at hk
  simp at hk

theorem link_of_linkable {dir child : Node} {name : Bytes} (h : s.Linkable dir.id name child.id) :
    (s.link dir name child).1 = .OK ∧ (s.link dir name child).2.Has dir.id name true := by
  obtain ⟨dr, cr, hd, he⟩ := linkT_of_linkable h
  simp only [link, he, true_and]
  exact addEdge_holds hd

theorem link_of_not_linkable {dir child : Node} {name : Bytes} (h : ¬ s.Linkable dir.id name child.id) :
    (s.link dir name child).1 ≠ .OK ∧ (s.link dir name child).2 = s := by
  obtain ⟨hne, hkv⟩ := linkT_of_not_linkable h
  simp [link, hne, hkv]

theorem unlinkT_of_unlinkable {dir : UInt64} {name : Bytes} (h : s.Unlinkable dir name) :
    ∃ dr c, loadNode s.kv dir s.cur = some dr ∧
      unlinkT s.cur s.kv dir name = (.OK, dropEdge s.cur s.kv dir name c) := by
  obtain ⟨dr, c, hd, hg⟩ := h
  exact ⟨dr, c, hd, by rw [unlinkT_eq]; simp [hd, hg]⟩

theorem unlinkT_of_not_unlinkable {dir : UInt64} {name : Bytes} (h : ¬ s.Unlinkable dir name) :
    (unlinkT s.cur s.kv dir name).1 ≠ .OK ∧ (unlinkT s.cur s.kv dir name).2 = s.kv := by
  rw [unlinkT_eq]
  split
  · simp
  · next dr hd =>
    split
    · simp
    · next c hg => exact absurd ⟨dr, c, hd, hg⟩ h

theorem Unlinkable.not_has {dir : UInt64} {name : Bytes} (h : s.Unlinkable dir name) : ¬ s.Has dir name false := by
  obtain ⟨dr, c, hd, hg⟩ := h
  rintro ⟨⟨r, hl, hv⟩, hk⟩
  obtain rfl : dr = r := Option.some.inj (hd.symm.trans hl)
  rw [dnAt, hv, Option.map_eq_some_iff] at hg
  obtain ⟨x, hx, -⟩ := hg
  rw [hx] at hk
  simp at hk

theorem unlink_of_unlinkable {dir : Node} {name : Bytes} (h : s.Unlinkable dir.id name) :
    (s.unlink dir name).1 = .OK ∧ (s.unlink dir name).2.Has dir.id name false := by
  obtain ⟨dr, c, hd, he⟩ := unlinkT_of_unlinkable h
  simp only [unlink, he, true_and]
  exact dropEdge_holds hd

theorem unlink_of_not_unlinkable {dir : Node} {name : Bytes} (h : ¬ s.Unlinkable dir.id name) :
    (s.unlink dir name).1 ≠ .OK ∧ (s.unlink dir name).2 = s := by
  obtain ⟨hne, hkv⟩ := unlinkT_of_not_unlinkable h
  simp [unlink, hne, hkv]

end PrfsStore

end Prfs
