import Prfs.DirCookies
import Prfs.Host
import Prfs.PagedScans
import Prfs.StoreGrowth

namespace Prfs

/-- A statement about what an option holds. -/
instance decidableForallSome {α : Type} (o : Option α) (P : α → Prop) [∀ x, Decidable (P x)] : Decidable (∀ x, o = some x → P x) :=
  match o with
  | none => isTrue fun _ hx => by cases hx
  | some x => decidable_of_iff (P x) ⟨fun hp _ hx => Option.some.inj hx ▸ hp, fun hp => hp x rfl⟩

namespace PrfsStore

variable {s t : PrfsStore} {n x : Node}

/-- The handle names an object, not a snapshot directory, of a view that is sealed. -/
def SealedNode (s : PrfsStore) (n : Node) : Prop := isSnapDir n.id = false ∧ n.snap < s.cur

/-- The handle is valid for good or for no time: its view is sealed, or its id has been given out. -/
def Lasting (s : PrfsStore) (n : Node) : Prop := s.SealedNode n ∨ snapBase n.id < s.next

/-- Nothing that happens later changes what the name is found as: the view is sealed, or it is the snapshot directory of a
live directory, or a number in one that is below the current version. -/
def FixedName (s : PrfsStore) (n : Node) (name : Bytes) : Prop :=
  s.SealedNode n ∨ snapBase n.id < s.next ∧ (n.snap = LATEST ∧ name = SNAPSHOT_NAME ∧ isSnapDir n.id = false ∨
    isSnapDir n.id = true ∧ ∀ g, parseSnap name = some g → g < s.cur)

theorem FixedName.lasting {name : Bytes} (h : s.FixedName n name) : s.Lasting n := h.imp_right And.left

instance (s : PrfsStore) (n : Node) : Decidable (s.SealedNode n) := inferInstanceAs (Decidable (_ ∧ _))

instance (s : PrfsStore) (n : Node) : Decidable (s.Lasting n) := inferInstanceAs (Decidable (_ ∨ _))

instance (s : PrfsStore) (n : Node) (name : Bytes) : Decidable (s.FixedName n name) := inferInstanceAs (Decidable (_ ∨ _))

/-- Both stores answer alike at the sealed handles of the first, and what they answer with are such handles. -/
structure SameSealed (s t : PrfsStore) : Prop where
  node : ∀ {n}, s.SealedNode n → t.nodeById n.id n.snap = s.nodeById n.id n.snap
  attrs : ∀ {n}, s.SealedNode n → t.attrs n = s.attrs n
  lookup : ∀ {n}, s.SealedNode n → ∀ name, t.lookup n name = s.lookup n name
  readdir : ∀ {n}, s.SealedNode n → t.readdir n = s.readdir n
  page : ∀ {n}, s.SealedNode n → ∀ after max, t.readdirPage n after max = s.readdirPage n after max
  parents : ∀ {n}, s.SealedNode n → t.parents n = s.parents n
  stats : ∀ {g}, g < s.cur → t.stats g = s.stats g
  found : ∀ {n x name}, s.SealedNode n → s.lookup n name = some x → s.SealedNode x
  listed : ∀ {n after max} {e : Bytes × Node}, s.SealedNode n → e ∈ (s.readdirPage n after max).entries →
    s.SealedNode e.2
  holders : ∀ {n x}, s.SealedNode n → x ∈ s.parents n → s.SealedNode x

theorem rr_sealed (hs : s.Sound) (hn : s.SealedNode n) : n.snap ≠ LATEST ∧ s.rr n.snap = n.snap :=
  ⟨ne_of_lt (lt_trans hn.2 hs.cur_lt), rr_of_lt hn.2⟩

theorem Sound.sealedNode_of_entry (h : s.Sound) (hn : s.SealedNode n) {d c : UInt64} {name : Bytes}
    (he : (viewAt s.kv (s.rr n.snap)).entry d name = some c) : s.SealedNode ⟨c, n.snap⟩ := by
  obtain ⟨r, hr⟩ := (h.consistent _).child he
  exact ⟨h.not_isSnapDir hr, hn.2⟩

theorem Sound.found_sealed (h : s.Sound) (hn : s.SealedNode n) {name : Bytes} (hx : s.lookup n name = some x) :
    s.SealedNode x := by
  rw [lookup_eq hn.1 (fun hh => (rr_sealed h hn).1 hh.2)] at hx
  obtain ⟨c, he, rfl⟩ := Option.map_eq_some_iff.mp hx
  exact h.sealedNode_of_entry hn he

theorem Sound.listed_sealed (h : s.Sound) (hn : s.SealedNode n) {after : Bytes} {max : Nat} {e : Bytes × Node}
    (he : e ∈ (s.readdirPage n after max).entries) : s.SealedNode e.2 := by
  obtain ⟨l, hl, hpage⟩ := readdirPage_eq (s := s) hn.1 after max
  rw [hpage, (pageLoop_spec max _ {} (Nat.zero_le max) rfl).1, List.nil_append] at he
  obtain ⟨p, hp, rfl⟩ := List.mem_map.mp (List.mem_of_mem_take he)
  exact h.sealedNode_of_entry hn ((hl.mem p.1 p.2).mp (List.mem_of_mem_filter hp))

theorem Sound.holders_sealed (h : s.Sound) (hn : s.SealedNode n) (hx : x ∈ s.parents n) : s.SealedNode x := by
  obtain ⟨l, hl, hparents⟩ := parents_eq h.base.wf (n := n) (h.consistent _)
  rw [hparents] at hx
  obtain ⟨d, hd, rfl⟩ := List.mem_map.mp hx
  obtain ⟨name, he⟩ := (hl.mem d).mp hd
  obtain ⟨r, hr, -⟩ := (h.consistent _).dir he
  exact ⟨h.not_isSnapDir hr, hn.2⟩

/-- What a run leaves of a store answers at its sealed handles as the store does. -/
theorem Sound.sameSealed (hs : s.Sound) (hr : Run s t) : SameSealed s t := by
  have ht := hs.run hr
  have hk := run_keeps hs hr
  have hview : ∀ {g}, g < s.cur → viewAt t.kv (t.rr g) = viewAt s.kv (s.rr g) := by
    intro g hg
    rw [rr_of_lt hg, rr_of_lt (lt_of_lt_of_le hg hk.cur), hk.view hg]
  refine ⟨fun {n} hn => ?_, fun {n} hn => ?_, fun {n} hn name => ?_, fun {n} hn => ?_, fun {n} hn after max => ?_,
    fun {n} hn => ?_, fun {g} hg => ?_, fun hn hx => hs.found_sealed hn hx, fun hn he => hs.listed_sealed hn he,
    fun hn hx => hs.holders_sealed hn hx⟩
  · rw [nodeById_eq_map, nodeById_eq_map, hview hn.2]
  · rw [attrs_eq hn.1, attrs_eq hn.1, hview hn.2]
  · have hlive : ¬ (name = SNAPSHOT_NAME ∧ n.snap = LATEST) := fun hh => (rr_sealed hs hn).1 hh.2
    rw [lookup_eq hn.1 hlive, lookup_eq hn.1 hlive, hview hn.2]
  · obtain ⟨l, hl, he⟩ := readdir_eq (s := s) hn.1
    obtain ⟨l', hl', he'⟩ := readdir_eq (s := t) hn.1
    rw [hview hn.2] at hl'
    rw [he, he', hl.unique hl']
  · obtain ⟨l, hl, he⟩ := readdirPage_eq (s := s) hn.1 after max
    obtain ⟨l', hl', he'⟩ := readdirPage_eq (s := t) hn.1 after max
    rw [hview hn.2] at hl'
    rw [he, he', hl.unique hl']
  · obtain ⟨l, hl, he⟩ := parents_eq hs.base.wf (n := n) (hs.consistent _)
    obtain ⟨l', hl', he'⟩ := parents_eq ht.base.wf (n := n) (ht.consistent _)
    rw [hview hn.2] at hl'
    rw [he, he', hl.unique hl']
  · obtain ⟨l, e, hl, he, hst⟩ := stats_eq hs.base.wf (hs.consistent (s.rr g))
    obtain ⟨l', e', hl', he', hst'⟩ := stats_eq ht.base.wf (ht.consistent (t.rr g))
    rw [hview hg] at hl' he'
    rw [hst, hst', hl.unique hl', he.length_eq he']

theorem Sound.lasting_nodeById (hs : s.Sound) (hr : Run s t) (hn : s.Lasting n) :
    t.nodeById n.id n.snap = s.nodeById n.id n.snap := by
  rcases hn with hn | hid
  · exact (hs.sameSealed hr).node hn
  · exact hs.nodeById_run hr hid

open Classical in
theorem Sound.fixedName_lookup (hs : s.Sound) (hr : Run s t) {name : Bytes} (hname : s.FixedName n name) :
    t.lookup n name = s.lookup n name := by
  rcases hname with hn | ⟨hid, ⟨hl, rfl, hd⟩ | ⟨hd, hnum⟩⟩
  · exact (hs.sameSealed hr).lookup hn name
  · rw [snapBase_of_real hd] at hid
    have htype := hs.type_rr hr n.snap hid
    have hdir : (viewAt t.kv (t.rr n.snap)).IsDir n.id ↔ (viewAt s.kv (s.rr n.snap)).IsDir n.id := by
      have hiff : ∀ o : Option NodeRec, (∃ r, o = some r ∧ r.type = FType.DIR.code) ↔ o.map NodeRec.type = some FType.DIR.code :=
        fun o => (Option.map_eq_some_iff).symm
      unfold View.IsDir
      rw [hiff, hiff, htype]
    rw [lookup_view hd, lookup_view hd]
    by_cases hx : (viewAt s.kv (s.rr n.snap)).IsDir n.id
    · rw [if_pos ⟨rfl, hl, hdir.mpr hx⟩, if_pos ⟨rfl, hl, hx⟩]
    · have hnone : ∀ {u : PrfsStore}, u.Sound → ¬ (viewAt u.kv (u.rr n.snap)).IsDir n.id →
          (viewAt u.kv (u.rr n.snap)).entry n.id SNAPSHOT_NAME = none := by
        intro u hu hno
        cases he : (viewAt u.kv (u.rr n.snap)).entry n.id SNAPSHOT_NAME with
        | none => rfl
        | some c => exact absurd ((hu.consistent _).dir he) hno
      rw [if_neg fun hh => hx (hdir.mp hh.2.2), if_neg fun hh => hx hh.2.2, hnone (hs.run hr) (mt hdir.mp hx), hnone hs hx]
  · have hk := run_keeps hs hr
    unfold lookup
    rw [if_pos hd, if_pos hd]
    dsimp only
    cases hp : parseSnap name with
    | none => rfl
    | some g =>
      have hg := hnum g hp
      have hview := congrArg (fun v : View => (v.node (snapBase n.id)).isSome) (hk.view hg)
      have hexist : t.existedAt (snapBase n.id) g = s.existedAt (snapBase n.id) g := by
        simpa [existedAt, viewAt] using hview
      have hlow : ¬ t.cur ≤ g := not_le.mpr (lt_of_lt_of_le hg hk.cur)
      dsimp only
      rw [hexist]
      simp only [hlow, not_le.mpr hg, false_or]

namespace SameSealed

variable {h : Host} {ck ck' : OrdMap UInt64 Bytes}

/-- The object of a sealed handle is there for both stores or for none. -/
theorem cases (hsame : SameSealed s t) (hn : s.SealedNode n) :
    t.nodeById n.id n.snap = none ∧ s.nodeById n.id n.snap = none ∨
      t.nodeById n.id n.snap = some n ∧ s.nodeById n.id n.snap = some n := by
  rw [hsame.node hn]
  cases hx : s.nodeById n.id n.snap with
  | none => exact .inl ⟨rfl, rfl⟩
  | some x =>
    obtain rfl : x = n := nodeById_eq hx
    exact .inr ⟨rfl, rfl⟩

theorem firstParent (hsame : SameSealed s t) (hn : s.SealedNode n) :
    firstParent t n = firstParent s n ∧ s.SealedNode (firstParent s n) := by
  unfold Prfs.firstParent
  rw [hsame.parents hn]
  refine ⟨rfl, ?_⟩
  cases hp : s.parents n with
  | nil => exact hn
  | cons x xs =>
    refine hsame.holders hn (x := x) ?_
    rw [hp]
    exact List.mem_cons_self

theorem pageFuel (hsame : SameSealed s t) (hn : s.SealedNode n) : pageFuel t n = pageFuel s n := by
  unfold Prfs.pageFuel
  rw [hsame.readdir hn]

/-- A cookie that both caches know, or neither, resumes alike. -/
theorem resumeName (hsame : SameSealed s t) (hn : s.SealedNode n) {cookie : UInt64} (hck : ck'.get cookie = ck.get cookie) :
    resumeName ck' t n cookie = resumeName ck s n cookie := by
  have hloop : ∀ fuel after, resumeLoop t n cookie fuel after = resumeLoop s n cookie fuel after := by
    intro fuel
    induction fuel with
    | zero => exact fun _ => rfl
    | succ fuel ih =>
      intro after
      rw [resumeLoop, resumeLoop, hsame.page hn, ih]
  unfold Prfs.resumeName
  rw [hck, hsame.pageFuel hn, hloop]

theorem read (hsame : SameSealed s t) (hcfg : t.contentConfig = s.contentConfig) (hn : s.SealedNode n) (off : UInt64)
    (len : Nat) : h.read t n off len = h.read s n off len := by
  unfold Host.read
  rw [hsame.attrs hn, hcfg]

theorem usedBytes (hsame : SameSealed s t) (hn : s.SealedNode n) : h.usedBytes t n = h.usedBytes s n := by
  unfold Host.usedBytes
  rw [hsame.attrs hn]

end SameSealed

end PrfsStore

end Prfs
