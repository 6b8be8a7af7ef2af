import Prfs.ListingPages
import Prfs.Nfs4Cases
import Prfs.SnapshotNames

namespace Prfs

namespace View

/-- The container of a node that has the least id. -/
def LeastHolder (v : View) (c p : UInt64) : Prop :=
  (∃ n, v.entry p n = some c) ∧ ∀ q n, v.entry q n = some c → p ≤ q

variable {v : View} {c p : UInt64} {l : List UInt64}

theorem Holders.head_iff (h : v.Holders c l) : l.head? = some p ↔ v.LeastHolder c p := by
  constructor
  · intro hp
    obtain ⟨rest, rfl⟩ := List.head?_eq_some_iff.mp hp
    refine ⟨(h.mem p).mp List.mem_cons_self, fun q n hq => ?_⟩
    rcases List.mem_cons.mp ((h.mem q).mpr ⟨n, hq⟩) with rfl | hmem
    · exact le_refl _
    · exact le_of_lt (List.rel_of_pairwise_cons h.sorted hmem)
  · rintro ⟨hp, hmin⟩
    cases l with
    | nil => exact absurd ((h.mem p).mpr hp) List.not_mem_nil
    | cons q rest =>
      obtain ⟨n, hq⟩ := (h.mem q).mp List.mem_cons_self
      have hle : q ≤ p := by
        rcases List.mem_cons.mp ((h.mem p).mpr hp) with rfl | hmem
        · exact le_refl _
        · exact le_of_lt (List.rel_of_pairwise_cons h.sorted hmem)
      rw [List.head?_cons, le_antisymm hle (hmin q n hq)]

end View

namespace PrfsStore

variable {s : PrfsStore} {d c p : Node} {name : Bytes}

/-- The parent that is shown of a directory: its container of the least id in its view, or itself where it has none. -/
def ShownParent (s : PrfsStore) (c p : Node) : Prop :=
  p.snap = c.snap ∧ ((viewAt s.kv (s.rr c.snap)).LeastHolder c.id p.id ∨
    p = c ∧ ∀ q n, (viewAt s.kv (s.rr c.snap)).entry q n ≠ some c.id)

theorem Sound.firstParent_shown (hs : s.Sound) (c : Node) : s.ShownParent c (firstParent s c) := by
  obtain ⟨l, hl, hpar⟩ := parents_eq hs.base.wf (hs.consistent (s.rr c.snap))
  unfold firstParent
  rw [hpar, List.head?_map]
  cases hh : l.head? with
  | none =>
    refine ⟨rfl, .inr ⟨rfl, fun q n hq => ?_⟩⟩
    obtain rfl := List.head?_eq_none_iff.mp hh
    exact absurd ((hl.mem q).mpr ⟨n, hq⟩) List.not_mem_nil
  | some p => exact ⟨rfl, .inl (hl.head_iff.mp hh)⟩

/-- What a lookup finds: an entry of a view, a snapshot directory, or a directory at a snapshot. -/
theorem lookup_cases (hc : s.lookup d name = some c) :
    (isSnapDir d.id = false ∧ c.snap = d.snap ∧ (viewAt s.kv (s.rr d.snap)).entry d.id name = some c.id) ∨
    (isSnapDir d.id = false ∧ d.snap = LATEST ∧ (viewAt s.kv s.cur).IsDir d.id ∧ c = ⟨d.id ||| SNAP_BIT, LATEST⟩) ∨
    (isSnapDir d.id = true ∧ c.id = snapBase d.id ∧ c.snap < s.cur ∧ s.existedAt c.id c.snap = true) := by
  cases hd : isSnapDir d.id with
  | true =>
    refine .inr (.inr ⟨rfl, ?_⟩)
    unfold lookup at hc
    rw [hd, if_pos rfl] at hc
    dsimp only at hc
    cases hn : parseSnap name with
    | none =>
      rw [hn] at hc
      cases hc
    | some n =>
      rw [hn] at hc
      dsimp only at hc
      split_ifs at hc with hout
      rw [not_or, not_or, not_lt, not_le, not_not] at hout
      obtain rfl := Option.some.inj hc
      exact ⟨rfl, hout.2.1, hout.2.2⟩
  | false =>
    rw [lookup_view hd] at hc
    split_ifs at hc with hsnap
    · obtain ⟨-, hl, hdir⟩ := hsnap
      rw [hl, rr_latest] at hdir
      exact .inr (.inl ⟨rfl, hl, hdir, (Option.some.inj hc).symm⟩)
    · obtain ⟨x, hx, rfl⟩ := Option.map_eq_some_iff.mp hc
      exact .inl ⟨rfl, rfl, hx⟩

theorem Sound.holder_real (hs : s.Sound) {g : SnapId} {q i : UInt64} {n : Bytes} (he : (viewAt s.kv g).entry q n = some i) :
    isSnapDir q = false ∧ isSnapDir i = false ∧ s.existedAt i g = true := by
  obtain ⟨qr, hq, -⟩ := (hs.consistent g).dir he
  obtain ⟨ir, hi⟩ := (hs.consistent g).child he
  refine ⟨hs.not_isSnapDir hq, hs.not_isSnapDir hi, ?_⟩
  obtain ⟨r, hr, -⟩ := Option.map_eq_some_iff.mp hi
  exact Option.isSome_iff_exists.mpr ⟨r, hr⟩

/-- A handle that a lookup gives is found. -/
theorem Sound.nodeById_of_lookup (hs : s.Sound) (hc : s.lookup d name = some c) : s.nodeById c.id c.snap = some c := by
  have hfound : s.existedAt (snapBase c.id) (s.rr c.snap) = true → s.nodeById c.id c.snap = some c := by
    intro hex
    unfold nodeById
    cases hb : isSnapDir c.id with
    | true => simp [hex]
    | false =>
      rw [snapBase_of_real hb] at hex
      simp [hex]
  refine hfound ?_
  rcases lookup_cases hc with ⟨-, hsnap, he⟩ | ⟨hd, hl, ⟨r, hr, -⟩, rfl⟩ | ⟨-, hid, hlt, hex⟩
  · obtain ⟨-, hreal, hex⟩ := hs.holder_real he
    rw [snapBase_of_real hreal, hsnap]
    exact hex
  · obtain ⟨x, hx, -⟩ := Option.map_eq_some_iff.mp hr
    rw [snapBase_or hd, rr_latest]
    exact Option.isSome_iff_exists.mpr ⟨x, hx⟩
  · rw [rr_of_lt hlt, hid, snapBase_of_real (isSnapDir_snapBase _), ← hid]
    exact hex

/-- The parent that is shown is the directory of the lookup exactly where that is a real directory, what it found is too, and
no other container of this has a lesser id. -/
theorem Sound.firstParent_eq_iff (hs : s.Sound) (hc : s.lookup d name = some c) :
    firstParent s c = d ↔ isSnapDir d.id = false ∧ isSnapDir c.id = false ∧
      ∀ q n, (viewAt s.kv (s.rr d.snap)).entry q n = some c.id → d.id ≤ q := by
  obtain ⟨hsnap, hshown⟩ := hs.firstParent_shown c
  have hreal : isSnapDir (firstParent s c).id = true → isSnapDir c.id = true := by
    intro hp
    rcases hshown with ⟨⟨n, he⟩, -⟩ | ⟨he, -⟩
    · rw [(hs.holder_real he).1] at hp
      cases hp
    · rw [he] at hp
      exact hp
  rcases lookup_cases hc with ⟨hd, hcs, he⟩ | ⟨hd, -, -, rfl⟩ | ⟨hd, hid, -, -⟩
  · rw [hcs] at hsnap hshown
    obtain ⟨-, hcreal, -⟩ := hs.holder_real he
    rcases hshown with ⟨⟨n, hn⟩, hmin⟩ | ⟨-, hno⟩
    · constructor
      · intro h
        rw [h] at hmin
        exact ⟨hd, hcreal, hmin⟩
      · rintro ⟨-, -, hle⟩
        have hids : (firstParent s c).id = d.id := le_antisymm (hmin _ _ he) (hle _ _ hn)
        calc firstParent s c = ⟨(firstParent s c).id, (firstParent s c).snap⟩ := rfl
          _ = d := by rw [hids, hsnap]
    · exact absurd he (hno _ _)
  · refine iff_of_false (fun h => ?_) (fun h => ?_)
    · rcases hshown with ⟨⟨n, he⟩, -⟩ | ⟨he, -⟩
      · have hcreal := (hs.holder_real he).2.1
        rw [isSnapDir_or] at hcreal
        cases hcreal
      · rw [← h, he, isSnapDir_or] at hd
        cases hd
    · rw [isSnapDir_or] at h
      cases h.2.1
  · refine iff_of_false (fun h => ?_) (fun h => ?_)
    · rw [h] at hreal
      have hbit := hreal hd
      rw [hid, isSnapDir_snapBase] at hbit
      cases hbit
    · rw [hd] at h
      cases h.1

end PrfsStore

namespace NfsV3

variable {v : NfsV3} {c : Node} {cookie : UInt64} {maxBytes perEntry : Nat}

/-- The entry of the parent's cookie is the parent that is shown. -/
theorem dotdot_of_mem (hs : PrfsStore.Run .empty v.fs) {r : Bool × Page} (h : pageDir v c cookie maxBytes perEntry = some r)
    {e : DirEnt} (he : e ∈ r.2.ents) (hck : e.cookie = CK_DOTDOT) : e.node = firstParent v.fs c := by
  have htakes := (pageDir_takes hs h).ents
  rw [List.nil_append] at htakes
  have hprefix := greedy_prefix (DirEnt.size perEntry) maxBytes 128 (pending v c cookie)
  have hmem : e ∈ pending v c cookie := hprefix.subset (htakes ▸ he)
  rw [pending, List.mem_append, List.mem_append] at hmem
  rcases hmem with hdot | hdotdot | hname
  · split_ifs at hdot
    · obtain rfl := List.mem_singleton.mp hdot
      cases hck
    · cases hdot
  · split_ifs at hdotdot
    · obtain rfl := List.mem_singleton.mp hdotdot
      rfl
    · cases hdotdot
  · obtain ⟨x, -, rfl⟩ := List.mem_map.mp hname
    exact absurd hck (nameCookie_ne (by decide) x.1)

/-- A listing from its start has that entry, where both synthesized entries fit. -/
theorem dotdot_listed (hs : PrfsStore.Run .empty v.fs) (hck : cookie < CK_DOTDOT) (hroom : 184 + 2 * perEntry ≤ maxBytes) :
    ∃ r, pageDir v c cookie maxBytes perEntry = some r ∧ ⟨dotdot, CK_DOTDOT, firstParent v.fs c⟩ ∈ r.2.ents := by
  have hres : Resumes v c cookie := fun hne => absurd (untagged_of_lt hck) hne
  obtain ⟨r, hr⟩ := pageDir_of_resumes maxBytes perEntry hres
  refine ⟨r, hr, ?_⟩
  have hdot : DirEnt.size perEntry ⟨dot, CK_DOT, c⟩ = 28 + perEntry := by
    have hpad : pad4 dot.length = 4 := by decide
    rw [DirEnt.size, entrySize, hpad]
  have hdotdot : DirEnt.size perEntry ⟨dotdot, CK_DOTDOT, firstParent v.fs c⟩ = 28 + perEntry := by
    have hpad : pad4 dotdot.length = 4 := by decide
    rw [DirEnt.size, entrySize, hpad]
  rw [(pageDir_takes hs hr).ents, List.nil_append, pending, if_pos hck]
  split_ifs with hfirst
  · rw [List.singleton_append, List.singleton_append, greedy, if_pos, greedy, if_pos]
    · simp
    · dsimp only
      omega
    · dsimp only
      omega
  · rw [List.nil_append, List.singleton_append, greedy, if_pos]
    · exact List.mem_cons_self
    · dsimp only
      omega

end NfsV3

namespace NfsV4.Call4

variable {call : Call4} {c : Node}

theorem opLookupp_dir (hn : call.fs.nodeById c.id c.snap = some c) (hcfh : call.cfh = some c)
    (hdir : (call.fs.attrs c).type = .DIR) :
    call.opLookupp.1 = .ok ∧ call.opLookupp.2.cfh = some (firstParent call.fs c) := by
  have hcur : call.cur = some c := by
    rw [cur, hcfh]
    exact hn
  unfold opLookupp lookupIn enter
  rw [hcur]
  dsimp only
  rw [hdir, if_neg (by simp)]
  exact ⟨rfl, rfl⟩

end NfsV4.Call4

/-- The parent of a directory that a lookup found, in either protocol, is its container of the least id, or itself where it has
none; that is the directory of the lookup exactly where neither of the two is a snapshot directory and no other container of the
one found has a lesser id. -/
theorem parent_comes_back_iff {v : NfsV3} {call : NfsV4.Call4} {d c : Node} {name : Bytes} (hs : PrfsStore.Run .empty v.fs)
    (hfs : call.fs = v.fs) (hc : v.fs.lookup d name = some c) (hdir : (v.fs.attrs c).type = .DIR) (hcfh : call.cfh = some c) :
    ∃ p, call.opLookupp.1 = .ok ∧ call.opLookupp.2.cfh = some p ∧
      (∀ cookie maxBytes perEntry r, NfsV3.pageDir v c cookie maxBytes perEntry = some r → ∀ e ∈ r.2.ents,
        e.cookie = NfsV3.CK_DOTDOT → e.node = p) ∧
      (∀ cookie maxBytes perEntry, cookie < NfsV3.CK_DOTDOT → 184 + 2 * perEntry ≤ maxBytes →
        ∃ r, NfsV3.pageDir v c cookie maxBytes perEntry = some r ∧ ⟨NfsV3.dotdot, NfsV3.CK_DOTDOT, p⟩ ∈ r.2.ents) ∧
      v.fs.ShownParent c p ∧
      (p = d ↔ isSnapDir d.id = false ∧ isSnapDir c.id = false ∧
        ∀ q n, (viewAt v.fs.kv (v.fs.rr d.snap)).entry q n = some c.id → d.id ≤ q) := by
  have hn := hs.sound.nodeById_of_lookup hc
  have hup := @NfsV4.Call4.opLookupp_dir call c (by rw [hfs]; exact hn) hcfh (by rw [hfs]; exact hdir)
  rw [hfs] at hup
  exact ⟨firstParent v.fs c, hup.1, hup.2, fun _ _ _ _ hr _ he hck => NfsV3.dotdot_of_mem hs hr he hck,
    fun _ _ _ hck hroom => NfsV3.dotdot_listed hs hck hroom, hs.sound.firstParent_shown c, hs.sound.firstParent_eq_iff hc⟩

/-- Two directories with one between them, and a snapshot. -/
def sharedDir : PrfsStore :=
  PrfsStore.empty.after [.mkdir, .link ⟨1, LATEST⟩ [97] ⟨2, LATEST⟩, .mkdir, .link ⟨1, LATEST⟩ [98] ⟨3, LATEST⟩, .mkdir,
    .link ⟨2, LATEST⟩ [99] ⟨4, LATEST⟩, .link ⟨3, LATEST⟩ [99] ⟨4, LATEST⟩, .snapshot []]

def atNode (c : Node) : NfsV4.Call4 := { v := {}, fs := sharedDir, cfh := some c }

/-- The parent that is shown of what the two directories share is the first of them. -/
theorem parent_comes_back_iff_first : sharedDir.ShownParent ⟨4, LATEST⟩ ⟨2, LATEST⟩ := by
  have hrun : PrfsStore.Run .empty sharedDir := PrfsStore.run_after (by decide)
  obtain ⟨p, -, hp, -, -, hshown, -⟩ := @parent_comes_back_iff ⟨sharedDir, .empty⟩ (atNode ⟨4, LATEST⟩) ⟨2, LATEST⟩ ⟨4, LATEST⟩
    [99] hrun rfl (by decide) (by decide) rfl
  have hback : (atNode ⟨4, LATEST⟩).opLookupp.2.cfh = some ⟨2, LATEST⟩ := by decide
  obtain rfl := Option.some.inj (hp.symm.trans hback)
  exact hshown

/-- From the second of the two directories the parent of what they share is the first; the parent of the root's snapshot directory
is that directory itself, and that of the root at the snapshot, which is found in it, is the root at the snapshot. -/
theorem parent_of_other : PrfsStore.Run .empty sharedDir ∧
    sharedDir.lookup ⟨3, LATEST⟩ [99] = some ⟨4, LATEST⟩ ∧ (atNode ⟨4, LATEST⟩).opLookupp.2.cfh = some ⟨2, LATEST⟩ ∧
    sharedDir.lookup ⟨1, LATEST⟩ SNAPSHOT_NAME = some ⟨1 ||| SNAP_BIT, LATEST⟩ ∧
    (atNode ⟨1 ||| SNAP_BIT, LATEST⟩).opLookupp.2.cfh = some ⟨1 ||| SNAP_BIT, LATEST⟩ ∧
    sharedDir.lookup ⟨1 ||| SNAP_BIT, LATEST⟩ [49] = some ⟨1, 1⟩ ∧
    (atNode ⟨1, 1⟩).opLookupp.2.cfh = some ⟨1, 1⟩ := by
  exact ⟨PrfsStore.run_after (by decide), by decide⟩

end Prfs
