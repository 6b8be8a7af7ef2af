import Prfs.LinkFrames
import Prfs.SealedReads

namespace Prfs

namespace Stats

/-- The statistics with one more live node. -/
def born (st : Stats) (r : NodeRec) : Stats :=
  { st with
    nodes := st.nodes.modify r.type.toNat (· + 1)
    totalSize := if r.type = FType.REG.code then st.totalSize + r.size else st.totalSize }

/-- The statistics with one live node less. -/
def died (st : Stats) (r : NodeRec) : Stats :=
  { st with
    nodes := st.nodes.modify r.type.toNat (· - 1)
    totalSize := if r.type = FType.REG.code then st.totalSize - r.size else st.totalSize }

/-- The statistics with the given number of links. -/
def withLinks (st : Stats) (n : Nat) : Stats := { st with links := UInt64.ofNat n }

/-- The law of a link to a node: one link more, and a node more where it is the node's first. -/
def linked (st : Stats) (r : NodeRec) : Stats :=
  let st := { st with links := st.links + 1 }
  if r.nlink = 0 then st.born r else st

/-- The law of an unlink: one link less, and a node less where it was the node's last. -/
def unlinked (st : Stats) (r : NodeRec) : Stats :=
  let st := { st with links := st.links - 1 }
  if r.nlink = 1 then st.died r else st

/-- The law of a new size: the difference, where the node is a live file. -/
def resized (st : Stats) (r : NodeRec) (size : UInt64) : Stats :=
  if r.nlink ≠ 0 ∧ r.type = FType.REG.code then { st with totalSize := st.totalSize + (size - r.size) } else st

variable {st : Stats} {r : NodeRec}

theorem countNode_eq : PrfsStore.countNode st r = if r.nlink = 0 then st else st.born r := rfl

theorem died_born : (st.born r).died r = st := by
  have hnodes : (st.nodes.modify r.type.toNat (· + 1)).modify r.type.toNat (· - 1) = st.nodes := by
    rw [List.modify_modify_eq]
    refine (congrArg (fun f => st.nodes.modify r.type.toNat f) (funext fun x => ?_)).trans (List.modify_id ..)
    simp
  have hsize : ∀ x y : UInt64, x + y - y = x := fun x y => by grind
  cases st
  simp only [born, died, Stats.mk.injEq, true_and] at hnodes ⊢
  refine ⟨hnodes, ?_⟩
  split_ifs
  · exact hsize ..
  · rfl

theorem born_nodes_ne (h : r.type.toNat < st.nodes.length) : (st.born r).nodes ≠ st.nodes := by
  intro he
  have hget := congrArg (fun l => l[r.type.toNat]?) he
  simp only [born, List.getElem?_modify_eq, List.getElem?_eq_getElem h, Option.map_eq_map, Option.map_some,
    Option.some.injEq] at hget
  grind

theorem born_comm (st : Stats) (r q : NodeRec) : (st.born r).born q = (st.born q).born r := by
  have hnodes : (st.nodes.modify r.type.toNat (· + 1)).modify q.type.toNat (· + 1) =
      (st.nodes.modify q.type.toNat (· + 1)).modify r.type.toNat (· + 1) := by
    by_cases ht : r.type.toNat = q.type.toNat
    · rw [ht]
    · exact (List.modify_modify_ne _ _ _ ht)
  simp only [born, hnodes, Stats.mk.injEq, true_and]
  split_ifs <;> first | rfl | grind

instance countNode_comm : RightCommutative PrfsStore.countNode where
  right_comm st r q := by
    simp only [countNode_eq]
    split_ifs <;> first | rfl | exact born_comm ..

/-- A node may as well be counted last. -/
theorem foldl_countNode_middle (xs ys : List NodeRec) (st : Stats) :
    (xs ++ r :: ys).foldl PrfsStore.countNode st = PrfsStore.countNode ((xs ++ ys).foldl PrfsStore.countNode st) r := by
  have hp : (xs ++ r :: ys).Perm ((xs ++ ys) ++ [r]) :=
    List.perm_middle.trans (List.perm_append_singleton r (xs ++ ys)).symm
  rw [hp.foldl_eq, List.foldl_append]
  rfl

theorem foldl_countNode_length (l : List NodeRec) (st : Stats) :
    (l.foldl PrfsStore.countNode st).nodes.length = st.nodes.length := by
  induction l generalizing st with
  | nil => rfl
  | cons r l ih =>
    rw [List.foldl_cons, ih, countNode_eq]
    split_ifs
    · rfl
    · exact List.length_modify ..

theorem withLinks_succ (n : Nat) :
    st.withLinks (n + 1) = { st.withLinks n with links := (st.withLinks n).links + 1 } := by
  simp only [withLinks, UInt64.ofNat_add]
  rfl

/-- A count that does not come round keeps the law of a link. -/
theorem count_incLink (base : Stats) (n : Nat) (ht : r.type.toNat < base.nodes.length) :
    (PrfsStore.countNode base (View.incLink r)).withLinks (n + 1) = ((PrfsStore.countNode base r).withLinks n).linked r ↔
      r.nlink ≠ 0xffffffff := by
  have hround : r.nlink + 1 = 0 ↔ r.nlink = 0xffffffff := by grind
  have hone : (View.incLink r).nlink = r.nlink + 1 := rfl
  have hborn : base.born (View.incLink r) = base.born r := rfl
  rw [countNode_eq, countNode_eq, hone, hborn, linked, ← withLinks_succ]
  by_cases hlast : r.nlink = 0xffffffff
  · have hzero : r.nlink ≠ 0 := by
      rw [hlast]
      decide
    rw [if_pos (hround.mpr hlast), if_neg hzero, if_neg hzero]
    refine iff_of_false (fun he => ?_) (not_not.mpr hlast)
    exact born_nodes_ne ht (congrArg Stats.nodes he).symm
  · rw [if_neg (fun h => hlast (hround.mp h))]
    refine iff_of_true ?_ hlast
    split_ifs <;> rfl

theorem count_decLink (base : Stats) (n : Nat) :
    (PrfsStore.countNode base (View.decLink r)).withLinks n =
      ((PrfsStore.countNode base r).withLinks (n + 1)).unlinked r := by
  have hlinks : ∀ st : Stats, { st.withLinks (n + 1) with links := (st.withLinks (n + 1)).links - 1 } = st.withLinks n := by
    intro st
    rw [withLinks_succ]
    simp
  have hone : r.nlink - 1 = 0 ↔ r.nlink = 1 := by grind
  rw [unlinked, hlinks]
  unfold View.decLink
  by_cases hzero : r.nlink = 0
  · rw [if_neg (not_not.mpr hzero), if_neg (by rw [hzero]; decide)]
  · rw [if_pos hzero, countNode_eq, countNode_eq, if_neg hzero]
    simp only [hone]
    split_ifs with hlast
    · exact died_born.symm
    · rfl

theorem count_size (base : Stats) (n : Nat) (size : UInt64) :
    (PrfsStore.countNode base { r with size }).withLinks n = ((PrfsStore.countNode base r).withLinks n).resized r size := by
  have hsum : ∀ t : UInt64, t + size = t + r.size + (size - r.size) := fun t => by grind
  simp only [countNode_eq, resized]
  by_cases hzero : r.nlink = 0
  · simp [hzero]
  · by_cases ht : r.type = FType.REG.code
    · simp [hzero, ht, born, withLinks, ← hsum]
    · simp [hzero, ht, born, withLinks]

end Stats

namespace View

variable {v : View} {st st' : Stats} {id : UInt64} {r q : NodeRec}

/-- The statistics of a view. -/
def Tallies (v : View) (st : Stats) : Prop :=
  ∃ l e, v.Nodes l ∧ v.Bound e ∧ st = Stats.tally (l.map Prod.snd) e.length

theorem Tallies.unique (h : v.Tallies st) (h' : v.Tallies st') : st = st' := by
  obtain ⟨l, e, hl, he, rfl⟩ := h
  obtain ⟨l', e', hl', he', rfl⟩ := h'
  rw [hl.unique hl', he.length_eq he']

/-- A node in its place among the others. -/
theorem Nodes.around {l : List (UInt64 × NodeRec)} (h : v.Nodes l) (hr : v.node id = some r) :
    ∃ xs ys, l = xs ++ (id, r) :: ys ∧ ∀ (w : View) q, (∀ i, i ≠ id → w.node i = v.node i) → w.node id = some q →
      w.Nodes (xs ++ (id, q) :: ys) := by
  obtain ⟨xs, ys, rfl⟩ := List.append_of_mem ((h.mem id r).mpr hr)
  refine ⟨xs, ys, rfl, fun w q hother hq => ?_⟩
  have hsorted := h.sorted
  simp only [List.pairwise_append, List.pairwise_cons, List.mem_cons, forall_eq_or_imp] at hsorted
  obtain ⟨hxs, ⟨hafter, hys⟩, hbetween⟩ := hsorted
  have hbefore : ∀ a ∈ xs, a.1 < id := fun a ha => (hbetween a ha).1
  refine ⟨?_, fun i x => ?_⟩
  · simp only [List.pairwise_append, List.pairwise_cons, List.mem_cons, forall_eq_or_imp]
    exact ⟨hxs, ⟨hafter, hys⟩, hbetween⟩
  · have hmem := h.mem i x
    simp only [List.mem_append, List.mem_cons, Prod.mk.injEq] at hmem ⊢
    by_cases hi : i = id
    · subst hi
      have hnx : (i, x) ∉ xs := fun hm => lt_irrefl _ (hbefore _ hm)
      have hny : (i, x) ∉ ys := fun hm => lt_irrefl _ (hafter _ hm)
      simp [hnx, hny, hq, eq_comm]
    · rw [hother i hi, ← hmem]
      simp [hi]

/-- What the other nodes count up to. -/
theorem Tallies.around (h : v.Tallies st) (hr : v.node id = some r) :
    ∃ base n, base.nodes.length = 7 ∧ st = (PrfsStore.countNode base r).withLinks n ∧ (∃ e, v.Bound e ∧ e.length = n) ∧
      ∀ (w : View) q e, (∀ i, i ≠ id → w.node i = v.node i) → w.node id = some q → w.Bound e →
        w.Tallies ((PrfsStore.countNode base q).withLinks e.length) := by
  obtain ⟨l, e, hl, he, rfl⟩ := h
  obtain ⟨xs, ys, rfl, hreplace⟩ := hl.around hr
  have htally : ∀ (q : NodeRec) n, Stats.tally ((xs ++ (id, q) :: ys).map Prod.snd) n =
      (PrfsStore.countNode (((xs ++ ys).map Prod.snd).foldl PrfsStore.countNode {}) q).withLinks n := by
    intro q n
    rw [Stats.tally, Stats.withLinks, List.map_append, List.map_cons, Stats.foldl_countNode_middle, ← List.map_append]
  refine ⟨((xs ++ ys).map Prod.snd).foldl PrfsStore.countNode {}, e.length, Stats.foldl_countNode_length _ _, htally r _,
    ⟨e, he, rfl⟩, fun w q e' hother hq he' => ?_⟩
  exact ⟨_, e', hreplace w q hother hq, he', (htally q _).symm⟩

section Laws

variable {dir child c : UInt64} {name : Bytes} {e : List (UInt64 × Bytes)}

/-- The record of a node, a blank one where there is none. -/
def record (v : View) (id : UInt64) : NodeRec := (v.node id).getD {}

theorem record_of_node (hr : v.node id = some r) : v.record id = r := by rw [record, hr, Option.getD_some]

theorem Bound.congr {w : View} (h : v.Bound e) (hw : w.entry = v.entry) : w.Bound e :=
  ⟨h.nodup, fun d n => by rw [hw, h.mem d n]⟩

theorem Bound.link (h : v.Bound e) (hfree : v.entry dir name = none) :
    (v.link dir name child).Bound ((dir, name) :: e) := by
  refine ⟨List.nodup_cons.mpr ⟨fun hm => ?_, h.nodup⟩, fun d n => ?_⟩
  · obtain ⟨x, hx⟩ := (h.mem dir name).mp hm
    rw [hfree] at hx
    cases hx
  · rw [List.mem_cons, Prod.mk.injEq, h.mem]
    simp only [View.link]
    split_ifs with hdn
    · simp [hdn]
    · simp [hdn]

theorem Bound.unlink (h : v.Bound e) (he : v.entry dir name = some c) :
    (v.unlink dir name c).Bound (e.erase (dir, name)) ∧ (e.erase (dir, name)).length + 1 = e.length := by
  have hmem : (dir, name) ∈ e := (h.mem dir name).mpr ⟨c, he⟩
  refine ⟨⟨h.nodup.erase _, fun d n => ?_⟩, ?_⟩
  · rw [h.nodup.mem_erase_iff, ne_eq, Prod.mk.injEq, h.mem]
    simp only [unlink_entry, exists_and_left]
  · rw [List.length_erase_of_mem hmem]
    have := List.length_pos_of_mem hmem
    omega

theorem Tallies.link (h : v.Tallies st) (hr : v.node child = some r) (ht : r.type.toNat < 7)
    (hfree : v.entry dir name = none) : ∃ st', (v.link dir name child).Tallies st' ∧
      (st' = st.linked (v.record child) ↔ v.nlink child ≠ 0xffffffff) := by
  obtain ⟨base, n, hlen, rfl, ⟨e, he, rfl⟩, hput⟩ := h.around hr
  refine ⟨_, hput _ (incLink r) _ (fun i hi => by simp [View.link, modify, hi]) (by simp [View.link, modify, hr])
    (he.link hfree), ?_⟩
  rw [nlink, hr, record_of_node hr, Option.getD_some, List.length_cons]
  exact Stats.count_incLink base e.length (hlen ▸ ht)

theorem Tallies.unlink (h : v.Tallies st) (hr : v.node c = some r) (he : v.entry dir name = some c) :
    (v.unlink dir name c).Tallies (st.unlinked (v.record c)) := by
  obtain ⟨base, n, -, rfl, ⟨e, hb, rfl⟩, hput⟩ := h.around hr
  obtain ⟨hb', hlen'⟩ := hb.unlink he
  rw [record_of_node hr, ← hlen', ← Stats.count_decLink]
  exact hput _ (decLink r) _ (fun i hi => by simp [View.unlink, modify, hi]) (by simp [View.unlink, modify, hr]) hb'

/-- A move keeps the statistics unless the link in it brings the count round. -/
theorem Tallies.move {ddir : UInt64} {dn : Bytes} (h : v.Tallies st) (hr : v.node c = some r) (ht : r.type.toNat < 7)
    (he : v.entry dir name = some c) (hfree : v.entry ddir dn = none) :
    ∃ st', ((v.link ddir dn c).unlink dir name c).Tallies st' ∧ (st' = st ↔ v.nlink c ≠ 0xffffffff) := by
  obtain ⟨base, n, hlen, rfl, ⟨e, hb, rfl⟩, hput⟩ := h.around hr
  have hmid : (v.link ddir dn c).Bound ((ddir, dn) :: e) := hb.link hfree
  obtain ⟨hb', hlen'⟩ := hmid.unlink (link_keeps_entry he hfree)
  rw [List.length_cons, Nat.add_right_cancel_iff] at hlen'
  refine ⟨_, hput _ (decLink (incLink r)) _ (fun i hi => by simp [View.link, View.unlink, modify, hi])
    (by simp [View.link, View.unlink, modify, hr]) hb', ?_⟩
  rw [hlen', nlink, hr, Option.getD_some]
  by_cases hlast : r.nlink = 0xffffffff
  · refine iff_of_false (fun heq => ?_) (not_not.mpr hlast)
    have hgone : (decLink (incLink r)).nlink = 0 := by
      simp [decLink, incLink, hlast]
    have hthere : r.nlink ≠ 0 := by
      rw [hlast]
      decide
    rw [Stats.countNode_eq, Stats.countNode_eq, if_pos hgone, if_neg hthere] at heq
    exact Stats.born_nodes_ne (hlen ▸ ht) (congrArg Stats.nodes heq).symm
  · rw [decLink_incLink.mpr hlast]
    exact iff_of_true rfl hlast

theorem Tallies.modify {f : NodeRec → NodeRec} (h : v.Tallies st)
    (hf : ∀ r, (f r).type = r.type ∧ (f r).nlink = r.nlink ∧ (f r).size = r.size) : (v.modify id f).Tallies st := by
  cases hr : v.node id with
  | none =>
    rw [modify_none hr]
    exact h
  | some r =>
    obtain ⟨base, n, -, rfl, ⟨e, hb, rfl⟩, hput⟩ := h.around hr
    have hcount : PrfsStore.countNode base (f r) = PrfsStore.countNode base r := by
      obtain ⟨ht, hn, hs⟩ := hf r
      simp only [Stats.countNode_eq, Stats.born, ht, hn, hs]
    rw [← hcount]
    exact hput _ (f r) e (fun i hi => by simp [View.modify, hi]) (by simp [View.modify, hr]) (hb.congr rfl)

theorem Tallies.size (h : v.Tallies st) (id x : UInt64) :
    (v.modify id (fun r => { r with size := x })).Tallies (st.resized (v.record id) x) := by
  cases hr : v.node id with
  | none =>
    rw [modify_none hr, record, hr]
    simpa [Stats.resized] using h
  | some r =>
    obtain ⟨base, n, -, rfl, ⟨e, hb, rfl⟩, hput⟩ := h.around hr
    rw [record_of_node hr, ← Stats.count_size]
    exact hput _ { r with size := x } e (fun i hi => by simp [View.modify, hi]) (by simp [View.modify, hr]) (hb.congr rfl)

/-- A new node has no link yet, and is not counted. -/
theorem Tallies.alloc (h : v.Tallies st) (hlt : ∀ i q, v.node i = some q → i < id) (hr : r.nlink = 0) :
    (v.alloc id r).Tallies st := by
  obtain ⟨l, e, hl, he, rfl⟩ := h
  refine ⟨l ++ [(id, r)], e, ⟨?_, fun i q => ?_⟩, he.congr rfl, ?_⟩
  · refine List.pairwise_append.mpr ⟨hl.sorted, List.pairwise_singleton .., fun a ha b hb => ?_⟩
    rw [List.mem_singleton.mp hb]
    exact hlt a.1 a.2 ((hl.mem a.1 a.2).mp ha)
  · rw [List.mem_append, hl.mem, List.mem_singleton, Prod.mk.injEq]
    simp only [View.alloc]
    split_ifs with hi
    · subst hi
      have hno : v.node i ≠ some q := fun hq => lt_irrefl _ (hlt i q hq)
      simp [hno, eq_comm]
    · simp [hi]
  · rw [Stats.tally, Stats.tally, List.map_append, List.foldl_append]
    simp [Stats.countNode_eq, hr]

end Laws

end View

/-- What the design makes of the statistics by an operation and its answer. -/
def lawStats (v : View) (st : Stats) : Op → Res → Stats
  | .link _ _ child, .err .OK => st.linked (v.record child.id)
  | .unlink dir name, .err .OK => ((v.entry dir.id name).map (fun c => st.unlinked (v.record c))).getD st
  | .setAttr n (.size x), _ => st.resized (v.record n.id) x
  | _, _ => st

/-- A link, by itself or in a move, that brings the link count of its child round to 0. -/
def Wraps (v : View) : Op → Res → Prop
  | .link _ _ child, .err .OK => v.nlink child.id = 0xffffffff
  | .move sdir sn _ _, .err .OK => ∃ c, v.entry sdir.id sn = some c ∧ v.nlink c = 0xffffffff
  | _, _ => False

theorem FType.code_lt (t : FType) : t.code.toNat < 7 := by
  cases t <;> decide

namespace FileSys

variable {a : FileSys} {st : Stats}

/-- The statistics after an operation are those of the law exactly when no link count has come round. -/
def Lawful (a : FileSys) (st : Stats) (op : Op) : Prop :=
  ∃ st', (a.exec op).2.live.Tallies st' ∧ (st' = lawStats a.live st op (a.exec op).1 ↔ ¬ Wraps a.live op (a.exec op).1)

theorem Inv.type_lt (hi : a.Inv) {id : UInt64} {r : NodeRec} (hr : a.live.node id = some r) : r.type.toNat < 7 := by
  obtain ⟨-, t, ht⟩ := hi.live_ids hr
  rw [ht]
  exact t.code_lt

theorem lawful_link (h : a.live.Tallies st) (hi : a.Inv) (dir : Node) (name : Bytes) (child : Node) :
    a.Lawful st (.link dir name child) := by
  unfold Lawful
  simp only [exec, onLive, View.linkOp]
  by_cases hok : a.live.linkError dir.id name child.id = .OK
  · obtain ⟨-, -, ⟨r, hr⟩, -, hfree⟩ := View.linkError_ok.mp hok
    rw [if_pos hok, hok]
    exact h.link hr (hi.type_lt hr) hfree
  · rw [if_neg hok]
    refine ⟨st, h, iff_of_true ?_ fun hw => ?_⟩
    · cases he : a.live.linkError dir.id name child.id <;> first | rfl | exact absurd he hok
    · cases he : a.live.linkError dir.id name child.id <;> rw [he] at hw <;> first | exact hw | exact hok he

theorem lawful_unlink (h : a.live.Tallies st) (hi : a.Inv) (dir : Node) (name : Bytes) :
    a.Lawful st (.unlink dir name) := by
  unfold Lawful
  simp only [exec, onLive]
  cases he : a.live.entry dir.id name with
  | none => exact ⟨st, by rwa [View.unlinkOp, he], iff_of_true (by rw [View.unlinkOp, he]; rfl) (by simp [Wraps])⟩
  | some c =>
    obtain ⟨r, hr⟩ := hi.live_cons.child he
    rw [View.unlinkOp_of_entry he]
    refine ⟨_, h.unlink hr he, iff_of_true ?_ (by simp [Wraps])⟩
    simp only [lawStats, he, Option.map_some, Option.getD_some]

theorem lawful_move (h : a.live.Tallies st) (hi : a.Inv) (sdir : Node) (sn : Bytes) (ddir : Node) (dn : Bytes) :
    a.Lawful st (.move sdir sn ddir dn) := by
  unfold Lawful
  simp only [exec, onLive]
  rcases a.live.moveOp_cases with ⟨c, he, hl, hop⟩ | ⟨hok, hsame⟩
  · obtain ⟨-, -, ⟨r, hr⟩, -, hfree⟩ := View.linkError_ok.mp hl
    rw [hop]
    obtain ⟨st', h', hiff⟩ := h.move hr (hi.type_lt hr) he hfree
    refine ⟨st', h', hiff.trans (not_congr ⟨fun hlast => ⟨c, he, hlast⟩, ?_⟩)⟩
    rintro ⟨c', he', hlast⟩
    rw [he] at he'
    rwa [Option.some.inj he']
  · rw [hsame]
    refine ⟨st, h, iff_of_true rfl fun hw => ?_⟩
    cases he : (a.live.moveOp sdir.id sn ddir.id dn).1 <;> rw [he] at hw <;> first | exact hw | exact hok he

theorem lawful_alloc (h : a.live.Tallies st) (hi : a.Inv) (t : FType) (blob : Bytes) (spec : UInt64) :
    (a.alloc t blob spec).2.live.Tallies st :=
  h.alloc (fun _ _ hr => (hi.live_ids hr).1.2) rfl

theorem lawful_setOp (h : a.live.Tallies st) (id : UInt64) (want : UInt32 → Bool) {f : NodeRec → NodeRec}
    (hf : ∀ r, (f r).type = r.type ∧ (f r).nlink = r.nlink ∧ (f r).size = r.size) :
    (a.live.setOp id want f).2.Tallies st := by
  unfold View.setOp
  split
  · exact h
  · split_ifs
    · exact h.modify hf
    · exact h

theorem lawful (h : a.live.Tallies st) (hi : a.Inv) (op : Op) : a.Lawful st op := by
  cases op with
  | mkdir => exact ⟨st, lawful_alloc h hi _ _ _, iff_of_true rfl id⟩
  | mkfile c => exact ⟨st, lawful_alloc h hi _ _ _, iff_of_true rfl id⟩
  | symlink t => exact ⟨st, lawful_alloc h hi _ _ _, iff_of_true rfl id⟩
  | mkfifo => exact ⟨st, lawful_alloc h hi _ _ _, iff_of_true rfl id⟩
  | mksock => exact ⟨st, lawful_alloc h hi _ _ _, iff_of_true rfl id⟩
  | mknod t maj min => exact ⟨st, lawful_alloc h hi _ _ _, iff_of_true rfl id⟩
  | link dir name child => exact lawful_link h hi dir name child
  | unlink dir name => exact lawful_unlink h hi dir name
  | move sdir sn ddir dn => exact lawful_move h hi sdir sn ddir dn
  | setContent reg c => exact ⟨st, lawful_setOp h _ _ (fun _ => ⟨rfl, rfl, rfl⟩), iff_of_true rfl id⟩
  | setTarget lnk t => exact ⟨st, lawful_setOp h _ _ (fun _ => ⟨rfl, rfl, rfl⟩), iff_of_true rfl id⟩
  | setRdev dev maj min => exact ⟨st, lawful_setOp h _ _ (fun _ => ⟨rfl, rfl, rfl⟩), iff_of_true rfl id⟩
  | setContentSeed reg seed => exact ⟨st, lawful_setOp h _ _ (fun _ => ⟨rfl, rfl, rfl⟩), iff_of_true rfl id⟩
  | setAttr n x =>
    cases x with
    | size x => exact ⟨_, h.size n.id x, iff_of_true rfl id⟩
    | mode x => exact ⟨st, h.modify (fun _ => ⟨rfl, rfl, rfl⟩), iff_of_true rfl id⟩
    | uid x => exact ⟨st, h.modify (fun _ => ⟨rfl, rfl, rfl⟩), iff_of_true rfl id⟩
    | gid x => exact ⟨st, h.modify (fun _ => ⟨rfl, rfl, rfl⟩), iff_of_true rfl id⟩
    | atime x => exact ⟨st, h.modify (fun _ => ⟨rfl, rfl, rfl⟩), iff_of_true rfl id⟩
    | mtime x => exact ⟨st, h.modify (fun _ => ⟨rfl, rfl, rfl⟩), iff_of_true rfl id⟩
    | ctime x => exact ⟨st, h.modify (fun _ => ⟨rfl, rfl, rfl⟩), iff_of_true rfl id⟩
    | atimeNsec x => exact ⟨st, h.modify (fun _ => ⟨rfl, rfl, rfl⟩), iff_of_true rfl id⟩
    | mtimeNsec x => exact ⟨st, h.modify (fun _ => ⟨rfl, rfl, rfl⟩), iff_of_true rfl id⟩
  | setTime t => exact ⟨st, h, iff_of_true rfl id⟩
  | setContentConfig blob => exact ⟨st, h, iff_of_true rfl id⟩
  | snapshot label => exact ⟨st, h, iff_of_true rfl id⟩

end FileSys

namespace PrfsStore

variable {s : PrfsStore}

theorem Sound.tallies (h : s.Sound) {g : SnapId} : (viewAt s.kv (s.rr g)).Tallies (s.stats g) :=
  stats_eq h.base.wf (h.consistent _)

/-- One operation keeps the law unless it brings a link count round to 0. -/
theorem Sound.stats_exec (h : s.Sound) {op : Op} (hf : s.Fits op) :
    (s.exec op).2.stats LATEST = lawStats s.liveView (s.stats LATEST) op (s.exec op).1 ↔
      ¬ Wraps s.liveView op (s.exec op).1 := by
  obtain ⟨a, hr, hi⟩ := id h
  obtain ⟨hres, hr'⟩ := hr.exec hi op hf
  have hlive : s.liveView = a.live := hr.live
  have htally := h.tallies (g := LATEST)
  rw [rr_latest, hr.live] at htally
  obtain ⟨st', h', hiff⟩ := FileSys.lawful htally hi op
  have htally' := (h.exec hf).tallies (g := LATEST)
  rw [rr_latest, hr'.live] at htally'
  rw [htally'.unique h', hlive, hres]
  exact hiff

/-- A snapshot keeps the statistics of the view that it seals. -/
theorem Sound.stats_sealed (h : s.Sound) {label : Bytes} {t : PrfsStore} (hf : s.Fits (.snapshot label))
    (ht : Run (s.snapshot label).2 t) : t.stats (s.snapshot label).1 = s.stats LATEST := by
  have hnext : (s.snapshot label).2.Sound := h.exec hf
  have hts := hnext.run ht
  have hkeeps := run_keeps hnext ht
  have hlt : s.cur < (s.snapshot label).2.cur := by
    have hroom : s.cur < LATEST - 1 := hf
    show s.cur < s.cur + 1
    simp only [LATEST] at hroom
    grind
  have hview : viewAt t.kv (t.rr s.cur) = viewAt s.kv (s.rr LATEST) := by
    rw [rr_of_lt (lt_of_lt_of_le hlt hkeeps.cur), rr_latest, hkeeps.view hlt]
    rfl
  have htally := hts.tallies (g := s.cur)
  rw [hview] at htally
  exact htally.unique h.tallies

/-- The statistics of the live view follow the law of the design in each operation, unless it brings a link count round
to 0, and a snapshot has those that the live view had when it was sealed. -/
theorem stats_law_iff (hs : Run empty s) :
    (∀ op, s.Fits op → ((s.exec op).2.stats LATEST = lawStats s.liveView (s.stats LATEST) op (s.exec op).1 ↔
      ¬ Wraps s.liveView op (s.exec op).1)) ∧
    ∀ label t, s.Fits (.snapshot label) → Run (s.snapshot label).2 t →
      t.stats (s.snapshot label).1 = s.stats LATEST :=
  ⟨fun _ hf => hs.sound.stats_exec hf, fun _ _ hf ht => hs.sound.stats_sealed hf ht⟩

/-- A file of three bytes loses its last name after a snapshot. -/
theorem stats_law_iff_unlink :
    let s := empty.after [.mkfile [], .link ⟨1, LATEST⟩ [97] ⟨2, LATEST⟩, .setAttr ⟨2, LATEST⟩ (.size 3)]
    (s.exec (.unlink ⟨1, LATEST⟩ [97])).2.stats LATEST = (s.stats LATEST).unlinked (s.liveView.record 2) ∧
      ((s.snapshot []).2.after [.unlink ⟨1, LATEST⟩ [97]]).stats 1 = s.stats LATEST := by
  obtain ⟨hstep, hsealed⟩ := stats_law_iff (s := empty.after [.mkfile [], .link ⟨1, LATEST⟩ [97] ⟨2, LATEST⟩,
    .setAttr ⟨2, LATEST⟩ (.size 3)]) (run_after (by decide))
  exact ⟨(hstep (.unlink ⟨1, LATEST⟩ [97]) trivial).mpr (fun h => h), hsealed [] _ (by decide) (run_after (by decide))⟩

theorem manyNames_unlawful {n : Nat} (hn : n + 1 = 2 ^ 32) :
    let s := manyNames n
    let op := Op.link ⟨1, LATEST⟩ (be (UInt64.ofNat n)) ⟨2, LATEST⟩
    Run empty s ∧ (s.exec op).1 = .err .OK ∧ s.liveView.nlink 2 = 0xffffffff ∧ (s.exec op).2.liveView.nlink 2 = 0 ∧
      (s.exec op).2.stats LATEST ≠ (s.stats LATEST).linked (s.liveView.record 2) := by
  obtain ⟨hrun, hok, hbefore, hafter⟩ := manyNames_wrap hn
  have hres : ((manyNames n).exec (.link ⟨1, LATEST⟩ (be (UInt64.ofNat n)) ⟨2, LATEST⟩)).1 = .err .OK :=
    congrArg Res.err hok
  have hfits : (manyNames n).Fits (.link ⟨1, LATEST⟩ (be (UInt64.ofNat n)) ⟨2, LATEST⟩) := trivial
  have hiff := hrun.sound.stats_exec hfits
  rw [hres] at hiff
  exact ⟨hrun, hres, hbefore, hafter, fun hlaw => hiff.mp hlaw hbefore⟩

/-- A link past the range of the count takes a node away where the law adds none. -/
theorem stats_law_wraps :
    let s := manyNames 4294967295
    let op := Op.link ⟨1, LATEST⟩ (be (UInt64.ofNat 4294967295)) ⟨2, LATEST⟩
    Run empty s ∧ (s.exec op).1 = .err .OK ∧ s.liveView.nlink 2 = 0xffffffff ∧ (s.exec op).2.liveView.nlink 2 = 0 ∧
      (s.exec op).2.stats LATEST ≠ (s.stats LATEST).linked (s.liveView.record 2) :=
  manyNames_unlawful (by decide)

end PrfsStore

end Prfs
