import Prfs.BigTree
import Prfs.PathWalks
import Prfs.TreeGrowth

namespace Prfs

theorem decimal_injective : Function.Injective decimal := by
  have hback : ∀ n, Nat.ofDigits 10 ((decimal n).reverse.map fun c => c.toNat - 48) = n := by
    intro n
    unfold decimal
    split_ifs with hn
    · rw [hn]
      rfl
    · rw [List.reverse_reverse, List.map_map]
      have hsame : (Nat.digits 10 n).map ((fun c : UInt8 => c.toNat - 48) ∘ fun d => UInt8.ofNat (48 + d)) = Nat.digits 10 n := by
        refine (List.map_congr_left fun d hd => ?_).trans (List.map_id _)
        have hlt : d < 10 := Nat.digits_lt_base (by decide) hd
        show (UInt8.ofNat (48 + d)).toNat - 48 = d
        rw [UInt8.toNat_ofNat_of_lt' (show 48 + d < 2 ^ 8 by omega)]
        omega
      rw [hsame, Nat.ofDigits_digits]
  intro m n h
  rw [← hback m, h, hback n]

theorem decimal_digits (n : Nat) : ∀ c ∈ decimal n, 48 ≤ c.toNat ∧ c.toNat < 58 := by
  intro c hc
  unfold decimal at hc
  split_ifs at hc
  · rw [List.mem_singleton.mp hc]
    decide
  · obtain ⟨d, hd, rfl⟩ := List.mem_map.mp (List.mem_reverse.mp hc)
    have hlt : d < 10 := Nat.digits_lt_base (by decide) hd
    rw [UInt8.toNat_ofNat_of_lt' (show 48 + d < 2 ^ 8 by omega)]
    omega

namespace Label

/-- The first two characters tell the labels apart. -/
def tag : Label → Bytes
  | .file => ascii ['f', 'i']
  | .hardlink => ascii ['h', 'a']
  | .symlink => ascii ['s', 'y']
  | .dir => ascii ['d', 'i']
  | .new => ascii ['n', 'e']
  | .day => ascii ['d', 'a']

theorem take_name (l : Label) (n : Nat) : (l.name n).take 2 = l.tag := by
  cases l with
  | _ => rfl

theorem name_injective {l l' : Label} {m n : Nat} (h : l.name m = l'.name n) : l = l' ∧ m = n := by
  have htag := congrArg (List.take 2) h
  rw [take_name, take_name] at htag
  have hl : l = l' := by
    revert htag
    revert l'
    cases l with
    | _ =>
      intro l' _ ht
      cases l' with
      | _ => first | rfl | exact absurd ht (by decide)
  subst hl
  refine ⟨rfl, ?_⟩
  cases l with
  | file => exact decimal_injective (List.append_cancel_left (List.append_cancel_right h))
  | hardlink => exact decimal_injective (List.append_cancel_left (List.append_cancel_right h))
  | symlink => exact decimal_injective (List.append_cancel_left h)
  | dir => exact decimal_injective (List.append_cancel_left h)
  | new => exact decimal_injective (List.append_cancel_left (List.append_cancel_right h))
  | day => exact decimal_injective (List.append_cancel_left h)

theorem name_ne_snapshot (l : Label) (n : Nat) : l.name n ≠ SNAPSHOT_NAME := by
  intro h
  have htag := congrArg (List.take 2) h
  rw [take_name] at htag
  cases l with
  | _ => exact absurd htag (by decide)

theorem slash_not_mem (l : Label) (n : Nat) : BigTree.slash ∉ l.name n := by
  have hnum : BigTree.slash ∉ decimal n := by
    intro hc
    have hlo := (decimal_digits n _ hc).1
    exact absurd hlo (by decide)
  cases l with
  | _ =>
    unfold name
    simp only [List.mem_append, hnum, or_false]
    decide

end Label

namespace View

def IsFile (v : View) (id : UInt64) : Prop := ∃ r, v.node id = some r ∧ r.type = FType.REG.code

/-- The text of a path from the root. -/
def pathText (names : List Bytes) : Bytes := names.flatMap fun n => BigTree.slash :: n

theorem pathText_snoc (names : List Bytes) (name : Bytes) : pathText (names ++ [name]) = BigTree.under (pathText names) name := by
  rw [pathText, List.flatMap_append, List.flatMap_singleton]
  rfl

/-- A path from the root whose names can be told apart in its text. -/
def Reached (v : View) (names : List Bytes) (id : UInt64) : Prop := v.Path 1 names id ∧ ∀ n ∈ names, BigTree.slash ∉ n

/-- What stands from the id `lo` on has been built into the root: the entries of these directories are of used names, each node has a
path of at most `depth` names, and each symbolic link has the text of a path to a file. -/
structure Tree (v : View) (lo next : UInt64) (used : Bytes → Prop) (depth : Nat) : Prop where
  labels : ∀ {d n c}, (d = 1 ∨ lo ≤ d) → v.entry d n = some c → used n
  reach : ∀ id, lo ≤ id → id < next → ∃ names, v.Reached names id ∧ names.length ≤ depth
  aims : ∀ {id r}, lo ≤ id → v.node id = some r → r.type = FType.LNK.code →
    ∃ names f, r.blob = pathText names ∧ v.Reached names f ∧ v.IsFile f

variable {v w : View} {lo next d c : UInt64} {used used' : Bytes → Prop} {depth : Nat} {names : List Bytes} {name : Bytes}

theorem Grows.isFile (h : Grows v w) (hf : v.IsFile d) : w.IsFile d := by
  obtain ⟨r, hr, ht⟩ := hf
  obtain ⟨q, hq, hqt, -⟩ := h.node hr
  exact ⟨q, hq, hqt.trans ht⟩

theorem Reached.grows (h : v.Reached names d) (hg : Grows v w) : w.Reached names d := ⟨h.1.grows hg, h.2⟩

theorem Reached.snoc (h : v.Reached names d) (he : v.entry d name = some c) (hname : BigTree.slash ∉ name) :
    v.Reached (names ++ [name]) c := by
  refine ⟨h.1.snoc he, fun n hn => ?_⟩
  rcases List.mem_append.mp hn with hn | hn
  · exact h.2 n hn
  · rw [List.mem_singleton.mp hn]
    exact hname

/-- The tree is the same where entries, types and blobs are. -/
theorem Tree.same (h : v.Tree lo next used depth) (hentry : w.entry = v.entry)
    (hnode : ∀ id, (w.node id).map (fun r => (r.type, r.blob)) = (v.node id).map fun r => (r.type, r.blob)) :
    Grows v w ∧ w.Tree lo next used depth := by
  have hback : ∀ {id q}, w.node id = some q → ∃ r, v.node id = some r ∧ r.type = q.type ∧ r.blob = q.blob := by
    intro id q hq
    have hpair := hnode id
    rw [hq, Option.map_some] at hpair
    obtain ⟨r, hr, heq⟩ := Option.map_eq_some_iff.mp hpair.symm
    exact ⟨r, hr, congrArg Prod.fst heq, congrArg Prod.snd heq⟩
  have hgrows : Grows v w := by
    refine ⟨fun he => by rw [hentry]; exact he, fun {id r} hr => ?_⟩
    have hpair := hnode id
    rw [hr, Option.map_some] at hpair
    obtain ⟨q, hq, heq⟩ := Option.map_eq_some_iff.mp hpair
    exact ⟨q, hq, congrArg Prod.fst heq, congrArg Prod.snd heq⟩
  refine ⟨hgrows, fun hd he => h.labels hd (by rw [← hentry]; exact he), fun id hlo hlt => ?_, fun hlo hq ht => ?_⟩
  · obtain ⟨names, hr, hlen⟩ := h.reach id hlo hlt
    exact ⟨names, hr.grows hgrows, hlen⟩
  · obtain ⟨r, hr, htype, hblob⟩ := hback hq
    obtain ⟨names, f, htext, hreached, hfile⟩ := h.aims hlo hr (htype.trans ht)
    exact ⟨names, f, hblob.symm.trans htext, hreached.grows hgrows, hgrows.isFile hfile⟩

/-- One entry more, of a name that is now used. -/
theorem Tree.link (h : v.Tree lo next used depth) (hfree : v.entry d name = none) (hused : ∀ n, used n ∨ n = name → used' n) :
    (v.link d name c).Tree lo next used' depth := by
  have hgrows := @grows_link v d c name hfree
  refine ⟨fun {e n x} he hx => ?_, fun id hlo hlt => ?_, fun {id q} hlo hq ht => ?_⟩
  · have hentry : (if e = d ∧ n = name then some c else v.entry e n) = some x := hx
    split_ifs at hentry with heq
    · exact hused n (.inr heq.2)
    · exact hused n (.inl (h.labels he hentry))
  · obtain ⟨names, hr, hlen⟩ := h.reach id hlo hlt
    exact ⟨names, hr.grows hgrows, hlen⟩
  · have hnode : (if id = c then (v.node id).map incLink else v.node id) = some q := hq
    have hold : ∃ r, v.node id = some r ∧ r.type = q.type ∧ r.blob = q.blob := by
      split_ifs at hnode
      · obtain ⟨r, hr, rfl⟩ := Option.map_eq_some_iff.mp hnode
        exact ⟨r, hr, rfl, rfl⟩
      · exact ⟨q, hnode, rfl, rfl⟩
    obtain ⟨r, hr, htype, hblob⟩ := hold
    obtain ⟨names, f, htext, hreached, hfile⟩ := h.aims hlo hr (htype.trans ht)
    exact ⟨names, f, hblob.symm.trans htext, hreached.grows hgrows, hgrows.isFile hfile⟩

/-- One node more, linked into a directory of the tree; a symbolic link has the text of a path to a file. -/
theorem Tree.make (h : v.Tree lo next used depth) (hnew : v.node next = none) (hnext : (next + 1).toNat = next.toNat + 1)
    {r : NodeRec} (haim : r.type = FType.LNK.code → ∃ names f, r.blob = pathText names ∧ v.Reached names f ∧ v.IsFile f)
    (hfree : v.entry d name = none) (hused : ∀ n, used n ∨ n = name → used' n) (hd : v.Reached names d)
    (hdepth : names.length + 1 ≤ depth) (hname : BigTree.slash ∉ name) :
    let w := (v.alloc next r).link d name next
    Grows v w ∧ w.Tree lo (next + 1) used' depth ∧ w.Reached (names ++ [name]) next := by
  have halloc := @grows_alloc v next r hnew
  have hlink : Grows (v.alloc next r) ((v.alloc next r).link d name next) := grows_link hfree
  have hgrows := halloc.trans hlink
  have hnone : (v.alloc next r).Tree lo next used depth := by
    refine ⟨h.labels, fun id hlo hlt => ?_, fun {id q} hlo hq ht => ?_⟩
    · obtain ⟨names, hr, hlen⟩ := h.reach id hlo hlt
      exact ⟨names, hr.grows halloc, hlen⟩
    · have hnode : (if id = next then some r else v.node id) = some q := hq
      split_ifs at hnode
      · cases hnode
        obtain ⟨names, f, htext, hreached, hfile⟩ := haim ht
        exact ⟨names, f, htext, hreached.grows halloc, halloc.isFile hfile⟩
      · obtain ⟨names, f, htext, hreached, hfile⟩ := h.aims hlo hnode ht
        exact ⟨names, f, htext, hreached.grows halloc, halloc.isFile hfile⟩
  have hentry : ((v.alloc next r).link d name next).entry d name = some next := if_pos ⟨rfl, rfl⟩
  have hreached := (hd.grows hgrows).snoc hentry hname
  have htree := @Tree.link _ _ _ d next used used' depth name hnone hfree hused
  refine ⟨hgrows, ⟨htree.labels, fun id hlo hlt => ?_, htree.aims⟩, hreached⟩
  by_cases hid : id = next
  · refine ⟨names ++ [name], by rw [hid]; exact hreached, ?_⟩
    rw [List.length_append]
    exact hdepth
  · refine htree.reach id hlo ?_
    rw [UInt64.lt_iff_toNat_lt] at hlt ⊢
    have hne : id.toNat ≠ next.toNat := fun he => hid (UInt64.toNat_inj.mp he)
    omega

end View

namespace PrfsStore

/-- The operations that make the nodes of the tree. -/
inductive Makes : Op → FType → Bytes → Prop
  | file : Makes (.mkfile []) .REG []
  | dir : Makes .mkdir .DIR []
  | symlink (target : Bytes) : Makes (.symlink target) .LNK target

variable {s : PrfsStore} {dir node : Node} {name blob : Bytes} {op : Op} {t : FType}

theorem succ_next (hroom : s.next < SNAP_BIT) : (s.next + 1).toNat = s.next.toNat + 1 := by
  rw [UInt64.lt_iff_toNat_lt] at hroom
  have hbit : SNAP_BIT.toNat = 2 ^ 63 := rfl
  rw [UInt64.toNat_add]
  exact Nat.mod_eq_of_lt (by rw [UInt64.toNat_one]; omega)

/-- `t` is a later store with one node more, which is linked in under a name. -/
structure Made (s t : PrfsStore) (type : FType) (blob : Bytes) (dir : UInt64) (name : Bytes) : Prop where
  run : Run s t
  next : t.next = s.next + 1
  cur : t.cur = s.cur
  free : s.liveView.node s.next = none
  live : ∃ r, r.type = type.code ∧ r.blob = blob ∧ t.liveView = (s.liveView.alloc s.next r).link dir name s.next

/-- The operations that neither make a node nor take a snapshot. -/
def Uncounted : Op → Bool
  | .link _ _ _ | .setAttr _ _ | .setTime _ | .setContentConfig _ | .setContentSeed _ _ => true
  | _ => false

theorem Sound.exec_uncounted (h : s.Sound) (hop : Uncounted op = true) :
    Run s (s.exec op).2 ∧ (s.exec op).2.next = s.next ∧ (s.exec op).2.cur = s.cur := by
  have hf : s.Fits op := by cases op <;> trivial
  obtain ⟨a, hr, hi⟩ := h
  have hr1 := (hr.exec hi op hf).2
  have ha : (a.exec op).2.next = a.next ∧ (a.exec op).2.cur = a.cur := by
    cases op with
    | link => exact ⟨rfl, rfl⟩
    | setAttr => exact ⟨rfl, rfl⟩
    | setTime => exact ⟨rfl, rfl⟩
    | setContentConfig => exact ⟨rfl, rfl⟩
    | setContentSeed => exact ⟨rfl, rfl⟩
    | _ => cases hop
  exact ⟨Reaches.tail .refl hf, by rw [hr1.next, ha.1, hr.next], by rw [hr1.cur, ha.2, hr.cur]⟩

theorem Sound.alloc_live (h : s.Sound) (hop : Makes op t blob) (hroom : s.next < SNAP_BIT) :
    let s' := (s.alloc t blob 0).2
    (Run s s' ∧ s'.next = s.next + 1 ∧ s'.cur = s.cur) ∧ s.liveView.node s.next = none ∧
      ∃ r, r.type = t.code ∧ r.blob = blob ∧ s'.liveView = s.liveView.alloc s.next r := by
  have hexec : s.exec op = Res.ofNode (s.alloc t blob 0) := by cases hop <;> rfl
  have hfits : s.Fits op := by cases hop <;> exact hroom
  have hrun : Run s (s.exec op).2 := Reaches.tail .refl hfits
  obtain ⟨a, hr, hi⟩ := h
  have hmodel : a.exec op = a.alloc t blob 0 := by cases hop <;> rfl
  have hr1 := (hr.exec hi op hfits).2
  rw [hexec, hmodel] at hr1
  rw [hexec] at hrun
  have hlive : s.liveView = a.live := hr.live
  have hlive1 : (s.alloc t blob 0).2.liveView = a.live.alloc a.next (a.newRec t blob 0) := hr1.live
  dsimp only
  rw [hlive, hlive1, hr.next]
  exact ⟨⟨hrun, hr1.next, hr1.cur.trans hr.cur.symm⟩, hi.next_free, a.newRec t blob 0, rfl, rfl, rfl⟩

/-- A node that has been made is linked in under a free name. -/
theorem Sound.made_of_alloc {s' : PrfsStore} (h : s.Sound) (hrun : Run s s') (hnext : s'.next = s.next + 1) (hcur : s'.cur = s.cur)
    (hfree : s.liveView.node s.next = none) {r : NodeRec} (htype : r.type = t.code) (hblob : r.blob = blob)
    (hlive : s'.liveView = s.liveView.alloc s.next r) (hd : s.liveView.IsDir dir.id) (hname : name ≠ SNAPSHOT_NAME)
    (hentry : s.liveView.entry dir.id name = none) : Made s (s'.link dir name ⟨s.next, LATEST⟩).2 t blob dir.id name := by
  have hs' := h.run hrun
  have hok : s'.liveView.linkError dir.id name s.next = .OK := by
    rw [hlive]
    exact View.linkError_new (h.consistent s.cur) hfree hd hname hentry
  obtain ⟨-, hview⟩ := link_view hs' (@link_ok _ hs' dir ⟨s.next, LATEST⟩ name hok)
  obtain ⟨htail, hnext', hcur'⟩ := @Sound.exec_uncounted s' (.link dir name ⟨s.next, LATEST⟩) hs' rfl
  rw [hlive] at hview
  exact ⟨Reaches.trans hrun htail, hnext'.trans hnext, hcur'.trans hcur, hfree, r, htype, hblob, hview⟩

theorem Sound.made (h : s.Sound) (hop : Makes op t blob) (hroom : s.next < SNAP_BIT) (hd : s.liveView.IsDir dir.id)
    (hname : name ≠ SNAPSHOT_NAME) (hentry : s.liveView.entry dir.id name = none) :
    Made s ((s.alloc t blob 0).2.link dir name ⟨s.next, LATEST⟩).2 t blob dir.id name := by
  obtain ⟨⟨hrun, hnext, hcur⟩, hfree, r, htype, hblob, hlive⟩ := h.alloc_live hop hroom
  exact h.made_of_alloc hrun hnext hcur hfree htype hblob hlive hd hname hentry

/-- A new node may get an attribute before it is linked in. -/
theorem Sound.made_set (h : s.Sound) (hop : Makes op t blob) (hroom : s.next < SNAP_BIT) (hd : s.liveView.IsDir dir.id)
    (hname : name ≠ SNAPSHOT_NAME) (hentry : s.liveView.entry dir.id name = none) (x : Setter) :
    Made s (((s.alloc t blob 0).2.setAttr ⟨s.next, LATEST⟩ x).link dir name ⟨s.next, LATEST⟩).2 t blob dir.id name := by
  obtain ⟨⟨hrun, hnext, hcur⟩, hfree, r, htype, hblob, hlive⟩ := h.alloc_live hop hroom
  have hs' := h.run hrun
  obtain ⟨htail, hnext', hcur'⟩ := @Sound.exec_uncounted _ (.setAttr ⟨s.next, LATEST⟩ x) hs' rfl
  obtain ⟨a, -, -, hview, hview'⟩ := @Sound.exec_live _ hs' (.setAttr ⟨s.next, LATEST⟩ x) trivial
  have hset : ((s.alloc t blob 0).2.setAttr ⟨s.next, LATEST⟩ x).liveView = s.liveView.alloc s.next (x.apply r) := by
    have hmodify : a.live.modify s.next (fun q => x.apply q) = s.liveView.alloc s.next (x.apply r) := by
      rw [← hview, hlive]
      refine View.ext (funext fun i => ?_) rfl rfl
      show (if i = s.next then (if i = s.next then some r else s.liveView.node i).map _ else if i = s.next then some r else _) =
        if i = s.next then some (x.apply r) else s.liveView.node i
      split_ifs
      · rfl
      · rfl
    exact hview'.trans hmodify
  exact h.made_of_alloc (Reaches.trans hrun htail) (hnext'.trans hnext) (hcur'.trans hcur) hfree
    (Eq.trans (by cases x <;> rfl) htype) (Eq.trans (by cases x <;> rfl) hblob) hset hd hname hentry

/-- The operations that leave the entries, and the types and blobs of the nodes, as they are. -/
def Quiet : Op → Bool
  | .setAttr _ _ | .setTime _ | .setContentConfig _ | .setContentSeed _ _ | .snapshot _ => true
  | _ => false

theorem shapes_modify {v : View} {id : UInt64} {f : NodeRec → NodeRec} (ht : ∀ r, (f r).type = r.type) (hb : ∀ r, (f r).blob = r.blob)
    (i : UInt64) : ((v.modify id f).node i).map (fun r => (r.type, r.blob)) = (v.node i).map fun r => (r.type, r.blob) := by
  show (if i = id then (v.node i).map f else v.node i).map _ = _
  split_ifs
  · rw [Option.map_map]
    cases v.node i with
    | none => rfl
    | some r =>
      show some ((f r).type, (f r).blob) = some (r.type, r.blob)
      rw [ht, hb]
  · rfl

theorem Sound.quiet_live (h : s.Sound) (hq : Quiet op = true) (hf : s.Fits op) :
    let s' := (s.exec op).2
    s'.liveView.entry = s.liveView.entry ∧
      ∀ id, (s'.liveView.node id).map (fun r => (r.type, r.blob)) = (s.liveView.node id).map fun r => (r.type, r.blob) := by
  obtain ⟨a, -, -, hlive, hlive'⟩ := h.exec_live hf
  dsimp only
  rw [hlive, hlive']
  cases op with
  | setAttr n x => exact ⟨rfl, shapes_modify (fun r => by cases x <;> rfl) fun r => by cases x <;> rfl⟩
  | setTime t => exact ⟨rfl, fun _ => rfl⟩
  | setContentConfig blob => exact ⟨rfl, fun _ => rfl⟩
  | snapshot label => exact ⟨rfl, fun _ => rfl⟩
  | setContentSeed reg seed =>
    show (a.live.setOp _ _ _).2.entry = _ ∧ ∀ id, ((a.live.setOp _ _ _).2.node id).map _ = _
    unfold View.setOp
    split
    · exact ⟨rfl, fun _ => rfl⟩
    · split_ifs
      · exact ⟨rfl, shapes_modify (fun _ => rfl) fun _ => rfl⟩
      · exact ⟨rfl, fun _ => rfl⟩
  | _ => cases hq

/-- `t` is a later store whose tree has grown, with `used` for the names in it by then; it took `n` ids at most, and `c` snapshots. -/
structure Grown (lo : UInt64) (used : Bytes → Prop) (depth n c : Nat) (s t : PrfsStore) : Prop where
  sound : t.Sound
  run : Run s t
  view : s.liveView.Grows t.liveView
  next : t.next.toNat ≤ s.next.toNat + n
  more : s.next ≤ t.next
  cur : t.cur.toNat = s.cur.toNat + c
  tree : t.liveView.Tree lo t.next used depth

variable {s t u : PrfsStore} {lo : UInt64} {used used' : Bytes → Prop} {depth m n k c c' : Nat} {dir node : Node}
  {names : List Bytes} {op : Op} {type : FType} {blob : Bytes} {l : Label}

theorem Grown.refl (h : s.Sound) (ht : s.liveView.Tree lo s.next used depth) : Grown lo used depth 0 0 s s :=
  ⟨h, .refl, .refl, le_rfl, le_rfl, rfl, ht⟩

theorem Grown.trans (h : Grown lo used depth m c s t) (h' : Grown lo used' depth n c' t u) :
    Grown lo used' depth (m + n) (c + c') s u := by
  have h1 := h.next
  have h2 := h'.next
  have h3 := h.cur
  have h4 := h'.cur
  exact ⟨h'.sound, Reaches.trans h.run h'.run, h.view.trans h'.view, by omega, le_trans h.more h'.more, by omega, h'.tree⟩

theorem Grown.mono (h : Grown lo used depth m c s t) (hmn : m ≤ n) : Grown lo used depth n c s t :=
  ⟨h.sound, h.run, h.view, le_trans h.next (by omega), h.more, h.cur, h.tree⟩

/-- A new name is free in the directories of the tree. -/
theorem free_of_unused (ht : s.liveView.Tree lo s.next used depth) (hours : dir.id = 1 ∨ lo ≤ dir.id) {name : Bytes}
    (hnew : ¬ used name) : s.liveView.entry dir.id name = none := by
  cases he : s.liveView.entry dir.id name with
  | none => rfl
  | some c => exact absurd (ht.labels hours he) hnew

theorem Made.grown (h : Made s t type blob dir.id (l.name k)) (hs : s.Sound) (ht : s.liveView.Tree lo s.next used depth)
    (hroom : s.next < SNAP_BIT) (hreach : s.liveView.Reached names dir.id) (hours : dir.id = 1 ∨ lo ≤ dir.id)
    (hdepth : names.length + 1 ≤ depth) (hnew : ¬ used (l.name k)) (hused : ∀ n, used n ∨ n = l.name k → used' n)
    (haim : type = .LNK → ∃ names f, blob = View.pathText names ∧ s.liveView.Reached names f ∧ s.liveView.IsFile f) :
    Grown lo used' depth 1 0 s t ∧ t.liveView.Reached (names ++ [l.name k]) s.next ∧
      ∃ r, t.liveView.node s.next = some r ∧ r.type = type.code := by
  have hsucc := succ_next hroom
  obtain ⟨hrun, hnext, hcur, hnone, r, htype, hblob, hlive⟩ := h
  have hr : r.type = FType.LNK.code → ∃ names f, r.blob = View.pathText names ∧ s.liveView.Reached names f ∧ s.liveView.IsFile f := by
    intro hlnk
    rw [htype] at hlnk
    rw [hblob]
    refine haim ?_
    cases type <;> first | rfl | exact absurd hlnk (by decide)
  obtain ⟨hgrows, htree, hreached⟩ := ht.make hnone hsucc hr (free_of_unused ht hours hnew) hused hreach hdepth (l.slash_not_mem k)
  refine ⟨⟨hs.run hrun, hrun, ?_, ?_, ?_, by rw [hcur]; rfl, ?_⟩, ?_, ?_⟩
  · rw [hlive]
    exact hgrows
  · rw [hnext, hsucc]
  · rw [hnext, UInt64.le_iff_toNat_le, hsucc]
    omega
  · rw [hlive, hnext]
    exact htree
  · rw [hlive]
    exact hreached
  · rw [hlive]
    refine ⟨View.incLink r, ?_, htype⟩
    show (if s.next = s.next then (if s.next = s.next then some r else _).map View.incLink else _) = _
    rw [if_pos rfl, if_pos rfl]
    rfl

/-- A name more for a regular file. -/
theorem Sound.link_grown (h : s.Sound) (ht : s.liveView.Tree lo s.next used depth) (hd : s.liveView.IsDir dir.id)
    (hours : dir.id = 1 ∨ lo ≤ dir.id) (hnew : ¬ used (l.name k)) (hused : ∀ n, used n ∨ n = l.name k → used' n)
    (hf : s.liveView.IsFile node.id) : Grown lo used' depth 0 0 s (s.link dir (l.name k) node).2 := by
  have hfree := free_of_unused ht hours hnew
  obtain ⟨r, hr, htype⟩ := hf
  have hok : s.liveView.linkError dir.id (l.name k) node.id = .OK := by
    refine View.linkError_ok.mpr ⟨l.name_ne_snapshot k, hd, ⟨r, hr⟩, fun hdir => ?_, hfree⟩
    obtain ⟨q, hq, hdirtype⟩ := hdir
    rw [hr] at hq
    cases hq
    rw [htype] at hdirtype
    exact absurd hdirtype (by decide)
  obtain ⟨-, hlive⟩ := link_view h (link_ok h hok)
  obtain ⟨hrun, hnext, hcur⟩ := @Sound.exec_uncounted s (.link dir (l.name k) node) h rfl
  have hnext' : (s.link dir (l.name k) node).2.next = s.next := hnext
  refine ⟨h.run hrun, hrun, ?_, by rw [hnext']; exact le_rfl, by rw [hnext'], congrArg UInt64.toNat hcur, ?_⟩
  · rw [hlive]
    exact View.grows_link hfree
  · rw [hlive, hnext']
    exact ht.link hfree hused

theorem Sound.quiet_grown (h : s.Sound) (ht : s.liveView.Tree lo s.next used depth) (hq : Quiet op = true) (hop : Uncounted op = true) :
    Grown lo used depth 0 0 s (s.exec op).2 := by
  have hf : s.Fits op := by cases op <;> trivial
  obtain ⟨hrun, hnext, hcur⟩ := h.exec_uncounted hop
  obtain ⟨hentry, hnode⟩ := h.quiet_live hq hf
  obtain ⟨hgrows, htree⟩ := ht.same hentry hnode
  refine ⟨h.run hrun, hrun, hgrows, by rw [hnext]; exact le_rfl, by rw [hnext], congrArg UInt64.toNat hcur, ?_⟩
  rw [hnext]
  exact htree

theorem Sound.snapshot_grown (h : s.Sound) (ht : s.liveView.Tree lo s.next used depth) (hf : s.cur.toNat + 1 < 2 ^ 64 - 1)
    (label : Bytes) : Grown lo used depth 0 1 s (s.snapshot label).2 := by
  have hlt : s.cur < LATEST - 1 := by
    rw [UInt64.lt_iff_toNat_lt]
    have hlast : (LATEST - 1).toNat = 2 ^ 64 - 2 := rfl
    omega
  have hrun : Run s (s.exec (.snapshot label)).2 := Reaches.tail .refl hlt
  obtain ⟨hentry, hnode⟩ := @Sound.quiet_live s (.snapshot label) h rfl hlt
  obtain ⟨hgrows, htree⟩ := ht.same hentry hnode
  refine ⟨h.run hrun, hrun, hgrows, le_rfl, le_rfl, ?_, htree⟩
  show (s.cur + 1).toNat = s.cur.toNat + 1
  rw [UInt64.toNat_add]
  exact Nat.mod_eq_of_lt (by rw [UInt64.toNat_one]; omega)

end PrfsStore

end Prfs
