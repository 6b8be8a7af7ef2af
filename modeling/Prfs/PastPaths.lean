import Prfs.FileCopies
import Prfs.ListingPages
import Prfs.Nfs4Attrs
import Prfs.PathWalks

namespace Prfs

namespace PrfsStore

/-- `t` has sealed what was live in `s`. -/
structure Seals (s t : PrfsStore) : Prop where
  cur : s.cur < t.cur
  view : viewAt t.kv s.cur = viewAt s.kv s.cur

variable {s t : PrfsStore} {n d : Node} {names : List Bytes}

theorem Sound.seals_snapshot (hs : s.Sound) {label : Bytes} (hf : s.Fits (.snapshot label))
    (hr : Run (s.exec (.snapshot label)).2 t) : s.Seals t := by
  have hlt := cur_lt_snapshot hf
  have hkeeps := run_keeps (hs.exec hf) hr
  exact ⟨lt_of_lt_of_le hlt hkeeps.cur, (hkeeps.view hlt).trans rfl⟩

namespace Seals

theorem rr (h : s.Seals t) : t.rr s.cur = s.cur := rr_of_lt h.cur

theorem attrs_past (h : s.Seals t) {id : UInt64} (hid : isSnapDir id = false) : t.attrs ⟨id, s.cur⟩ = s.attrs ⟨id, LATEST⟩ := by
  rw [attrs_eq hid, attrs_eq hid, h.rr, rr_latest, h.view]

theorem nodeById_past (h : s.Seals t) {id : UInt64} (hid : isSnapDir id = false) (hn : s.nodeById id LATEST = some ⟨id, LATEST⟩) :
    t.nodeById id s.cur = some ⟨id, s.cur⟩ := by
  rw [nodeById_eq_map, snapBase_of_real hid, rr_latest] at hn
  rw [nodeById_eq_map, snapBase_of_real hid, h.rr, h.view]
  obtain ⟨r, hr, -⟩ := Option.map_eq_some_iff.mp hn
  rw [hr]
  rfl

theorem lookup_past (h : s.Seals t) {id : UInt64} {name : Bytes} (hid : isSnapDir id = false) (hname : name ≠ SNAPSHOT_NAME) :
    t.lookup ⟨id, s.cur⟩ name = (s.lookup ⟨id, LATEST⟩ name).map fun x => ⟨x.id, s.cur⟩ := by
  rw [lookup_eq hid fun hsnap => hname hsnap.1, lookup_eq hid fun hsnap => hname hsnap.1, h.rr, rr_latest, h.view, Option.map_map]
  rfl

/-- A path that names no snapshot directory goes through the sealed view as it went through the live one. -/
theorem walk_past (h : s.Seals t) (hs : s.Sound) {id : UInt64} (hid : isSnapDir id = false) (hnames : SNAPSHOT_NAME ∉ names) :
    t.walk ⟨id, s.cur⟩ names = (s.walk ⟨id, LATEST⟩ names).map fun x => ⟨x.id, s.cur⟩ := by
  induction names generalizing id with
  | nil => rfl
  | cons name names ih =>
    obtain ⟨hname, hrest⟩ := List.ne_and_not_mem_of_not_mem_cons hnames
    rw [walk, walk, h.attrs_past hid, h.lookup_past hid (Ne.symm hname)]
    split_ifs
    · rfl
    · cases hx : s.lookup ⟨id, LATEST⟩ name with
      | none => rfl
      | some x =>
        have hreal : isSnapDir x.id = false ∧ x = ⟨x.id, LATEST⟩ := by
          rw [lookup_eq hid fun hsnap => Ne.symm hname hsnap.1] at hx
          obtain ⟨i, he, rfl⟩ := Option.map_eq_some_iff.mp hx
          exact ⟨(hs.holder_real he).2.1, rfl⟩
        rw [hreal.2, Option.map_some]
        dsimp only
        rw [ih hreal.1 hrest]
        cases s.walk ⟨x.id, LATEST⟩ names with
        | error e => rfl
        | ok y => rfl

end Seals

/-- The live walk stays in the live view. -/
theorem Sound.walk_live (hs : s.Sound) {id : UInt64} (hid : isSnapDir id = false) (hnames : SNAPSHOT_NAME ∉ names)
    (hn : s.nodeById id LATEST = some ⟨id, LATEST⟩) (hw : s.walk ⟨id, LATEST⟩ names = .ok n) :
    isSnapDir n.id = false ∧ n.snap = LATEST ∧ s.nodeById n.id n.snap = some n := by
  induction names generalizing id with
  | nil =>
    cases hw
    exact ⟨hid, rfl, hn⟩
  | cons name names ih =>
    obtain ⟨hname, hrest⟩ := List.ne_and_not_mem_of_not_mem_cons hnames
    rw [walk] at hw
    split_ifs at hw
    cases hx : s.lookup ⟨id, LATEST⟩ name with
    | none =>
      rw [hx] at hw
      cases hw
    | some x =>
      have hnode := hs.nodeById_of_lookup hx
      rw [hx] at hw
      dsimp only at hw
      rw [lookup_eq hid fun hsnap => Ne.symm hname hsnap.1] at hx
      obtain ⟨i, he, rfl⟩ := Option.map_eq_some_iff.mp hx
      cases hy : s.walk ⟨i, LATEST⟩ names with
      | error e =>
        rw [hy] at hw
        cases hw
      | ok y =>
        rw [hy] at hw
        cases hw
        exact ih (hs.holder_real he).2.1 hrest hnode hy

/-- The root of a running store is a directory in the live view. -/
theorem Run.root_isDir (hs : Run empty s) : (viewAt s.kv s.cur).IsDir s.root := by
  have htype := @Sound.type_rr empty s .empty hs LATEST 1 (by decide)
  have hroot : ((viewAt empty.kv (empty.rr LATEST)).node 1).map NodeRec.type = some FType.DIR.code := by decide
  rw [hroot, rr_latest] at htype
  rw [hs.sound.root]
  exact Option.map_eq_some_iff.mp htype

/-- The snapshot directory of the root leads to the root as it was. -/
theorem Seals.walk_root (h : s.Seals t) (hs : Run empty s) (ht : Run empty t) (hnames : SNAPSHOT_NAME ∉ names) :
    t.walk t.rwRoot (SNAPSHOT_NAME :: toString s.cur :: names) =
      ((s.walk s.rwRoot names).mapError fun e => (e.1 + 2, e.2)).map fun x => ⟨x.id, s.cur⟩ := by
  have hroot : isSnapDir 1 = false := by decide
  have hexist : t.existedAt 1 s.cur = true := by
    obtain ⟨r, hr, -⟩ := hs.root_isDir
    rw [← h.view, hs.sound.root] at hr
    obtain ⟨q, hq, -⟩ := Option.map_eq_some_iff.mp hr
    exact Option.isSome_iff_exists.mpr ⟨q, hq⟩
  have hpos : 1 ≤ s.cur := by
    rw [UInt64.le_iff_toNat_le]
    by_contra hzero
    have hcur : s.cur = 0 := UInt64.toNat_inj.mp (by simpa using hzero)
    rw [hcur, ht.existedAt_zero] at hexist
    cases hexist
  have hsnap : t.Holds ⟨1, LATEST⟩ SNAPSHOT_NAME ⟨1 ||| SNAP_BIT, LATEST⟩ := by
    refine .inr (.inl ⟨hroot, rfl, rfl, ?_, rfl⟩)
    have hdir := ht.root_isDir
    rw [ht.sound.root] at hdir
    exact hdir
  have hpast : t.Holds ⟨1 ||| SNAP_BIT, LATEST⟩ (toString s.cur) ⟨1, s.cur⟩ :=
    .inr (.inr ⟨isSnapDir_or 1, (snapBase_or hroot).symm, parseSnap_toString s.cur, hpos, h.cur, hexist⟩)
  have hlive : s.rwRoot = ⟨1, LATEST⟩ := congrArg (fun i => (⟨i, LATEST⟩ : Node)) hs.sound.root
  have hnow : t.rwRoot = ⟨1, LATEST⟩ := congrArg (fun i => (⟨i, LATEST⟩ : Node)) ht.sound.root
  rw [hlive, hnow, walk, if_neg (not_not.mpr (ht.sound.dir_of_holds hsnap)), ht.lookup_iff.mpr hsnap]
  dsimp only
  rw [walk, if_neg (not_not.mpr (ht.sound.dir_of_holds hpast)), ht.lookup_iff.mpr hpast]
  dsimp only
  rw [h.walk_past hs.sound hroot hnames]
  cases s.walk ⟨1, LATEST⟩ names with
  | error e => rfl
  | ok x => rfl

end PrfsStore

namespace Server

variable {h : Host} {hash : Bytes → UInt64} {pos : Nat → Nat → WalkOrder} {beyond : Nat → UInt8} {s : Server} {names : List Bytes}

/-- After a snapshot, the path of its number and then of any live names gives both clients, for ever, what the live names led to when
the snapshot was made: the same object with the attributes of that time, and its bytes of that time; or it stops where they stopped. -/
theorem past_files (hs : PrfsStore.Run .empty s.fs) {label : Bytes} (hfit : s.fs.Fits (.snapshot label)) {states : Nat → Server}
    (ht : ∀ k, Traffic h hash (s.step h hash (.direct (.snapshot label))) (states k)) (hplain : SNAPSHOT_NAME ∉ names)
    (hnames : ∀ n ∈ names, n.length ≤ 0xFFFB9) (hdepth : names.length ≤ 4092) {xid : UInt32}
    (hlen : (NfsV4.pathCall xid (SNAPSHOT_NAME :: toString s.fs.cur :: names)).length ≤ 0x200000) :
    let path := SNAPSHOT_NAME :: toString s.fs.cur :: names
    let live := s.fs.walk s.fs.rwRoot names
    let past := (live.mapError fun e => (e.1 + 2, e.2)).map fun x => (⟨x.id, s.fs.cur⟩ : Node)
    (∀ k, NfsV3.clientPath (NfsV3.connection h beyond) xid ⟨(states k).fs, (states k).names⟩ path =
      some (past.mapError fun e => (e.1, (toNfsStat e.2).code), ⟨(states k).fs, (states k).names⟩)) ∧
    (∀ k, NfsV4.clientPath (NfsV4.connection h hash pos beyond) xid ((states k).server4, k) path =
      some (past.mapError fun e => (e.1, (toNfs4 e.2).code), ((states k).server4, k + 1))) ∧
    ∀ x, live = .ok x → (∀ k, (states k).fs.attrs ⟨x.id, s.fs.cur⟩ = s.fs.attrs x) ∧
      ∀ gen c cnt fuel, (s.fs.attrs x).type = .REG → (s.fs.attrs x).size.toNat < 2 ^ 63 →
        h.provider = some (Content.configProvider gen) → Content.deserialize s.fs.contentConfig = .ok c →
        c.blockSize.toNat ≤ 2 ^ 32 - 16 → (∀ k, (states k).fs.contentConfig = s.fs.contentConfig) →
        (s.fs.attrs x).size.toNat < fuel * Host.share cnt →
        let bytes := Content.bytesAt gen c (s.fs.attrs x).contentSeed 0 (s.fs.attrs x).size.toNat
        NfsV3.clientCopy (fun k call => (NfsV3.connection h beyond ⟨(states k).fs, (states k).names⟩ call).map Prod.fst) xid
          ⟨x.id, s.fs.cur⟩ cnt fuel = some (.ok bytes) ∧
        NfsV4.clientCopy (fun k call => (NfsV4.connection h hash pos beyond ((states k).server4, k) call).map Prod.fst) xid
          ⟨x.id, s.fs.cur⟩ cnt fuel = some (.ok bytes) := by
  have hall : ∀ k, PrfsStore.Run .empty (states k).fs := by
    intro k
    have hsnap : PrfsStore.Run .empty (s.step h hash (.direct (.snapshot label))).fs := Reaches.tail hs hfit
    exact Reaches.trans hsnap (ht k).fs_run
  have hseals : ∀ k, s.fs.Seals (states k).fs := fun k => hs.sound.seals_snapshot hfit (ht k).fs_run
  have hwalk := fun k => (hseals k).walk_root hs (hall k) hplain
  have hshort : (toString s.fs.cur).length ≤ 20 := toString_length_le s.fs.cur
  have hlong : ∀ n ∈ SNAPSHOT_NAME :: toString s.fs.cur :: names, n.length ≤ 0xFFFB9 := by
    intro n hn
    rcases List.mem_cons.mp hn with rfl | hn
    · decide
    · rcases List.mem_cons.mp hn with rfl | hn
      · omega
      · exact hnames n hn
  refine ⟨fun k => ?_, fun k => ?_, fun x hx => ?_⟩
  · obtain ⟨frame, hframe, hhandle⟩ := NfsV3.mnt_served h beyond ⟨(states k).fs, (states k).names⟩ xid
    rw [← hwalk k]
    unfold NfsV3.clientPath
    rw [hframe, Option.bind_some, hhandle, Option.bind_some]
    exact @NfsV3.clientWalk_eq h beyond ⟨(states k).fs, (states k).names⟩ _ _ xid (hall k).sound (hall k).sound.nodeById_root hlong
  · rw [← hwalk k]
    refine @NfsV4.clientPath_eq h hash (states k).server4 _ pos beyond k xid (hall k).sound (fun n hn => ?_) ?_ hlen
    · have hn := hlong n hn
      omega
    · show names.length + 2 ≤ 4094
      omega
  · have hroot : isSnapDir s.fs.root = false := by
      rw [hs.sound.root]
      decide
    obtain ⟨hreal, hlive, hnode⟩ := hs.sound.walk_live hroot hplain hs.sound.nodeById_root hx
    have hnow : x = ⟨x.id, LATEST⟩ := by rw [← hlive]
    have hattrs : ∀ k, (states k).fs.attrs ⟨x.id, s.fs.cur⟩ = s.fs.attrs x := by
      intro k
      rw [(hseals k).attrs_past hreal, ← hnow]
    refine ⟨hattrs, fun gen c cnt fuel hreg hsize hprov hc hbs hcfg hfuel => ?_⟩
    have hlength : (Content.bytesAt gen c (s.fs.attrs x).contentSeed 0 (s.fs.attrs x).size.toNat).length =
        (s.fs.attrs x).size.toNat := by
      simp [Content.bytesAt]
    refine copies_given (fun k => ?_) (fun k => ?_) (fun k => ?_) (by rw [hlength]; exact hsize) xid (by rw [hlength]; exact hfuel)
    · refine (hseals k).nodeById_past hreal ?_
      rw [hlive] at hnode
      exact hnode.trans (congrArg some hnow)
    · rw [hattrs k]
      exact hreg
    · rw [← hattrs k]
      refine Host.gives_config hprov ?_ hbs ?_
      · rw [hcfg k]
        exact hc
      · rw [hattrs k]
        exact hsize

/-- A file of five bytes with the entry "b" of the directory with the entry "a". -/
def nestedA : PrfsStore :=
  PrfsStore.empty.after [.mkdir, .link ⟨1, LATEST⟩ [97] ⟨2, LATEST⟩, .mkfile [], .link ⟨2, LATEST⟩ [98] ⟨3, LATEST⟩,
    .setAttr ⟨3, LATEST⟩ (.size 5)]

set_option maxRecDepth 20000 in
/-- After the snapshot the file grows and loses its entry; the path into the snapshot still gives it with the size that it had, and a
copy of it has the bytes that it had. -/
theorem past_files_removed :
    let h : Host := { provider := some (Content.configProvider addGen) }
    let s : Server := { fs := nestedA }
    let t := (s.step h (fun _ => 0) (.direct (.snapshot []))).after h (fun _ => 0)
      [.direct (.setAttr ⟨3, LATEST⟩ (.size 9)), .direct (.unlink ⟨2, LATEST⟩ [98])]
    (NfsV3.clientPath (NfsV3.connection h fun _ => 0) 7 ⟨t.fs, t.names⟩ [SNAPSHOT_NAME, [49], [97], [98]]).map Prod.fst =
        some (.ok ⟨3, 1⟩) ∧
      (t.fs.attrs ⟨3, 1⟩).size = 5 ∧
      NfsV3.clientCopy (fun _ call => (NfsV3.connection h (fun _ => 0) ⟨t.fs, t.names⟩ call).map Prod.fst) 7 ⟨3, 1⟩ 2 3 =
        some (.ok (Content.bytesAt addGen {} 3 0 5)) := by
  intro h s t
  have hs : PrfsStore.Run .empty s.fs := PrfsStore.run_after (by decide)
  have ht : Traffic h (fun _ => 0) (s.step h (fun _ => 0) (.direct (.snapshot []))) t := traffic_after (by decide)
  have hcfg : t.fs.contentConfig = s.fs.contentConfig := by decide
  have hwalk : s.fs.walk s.fs.rwRoot [[97], [98]] = .ok ⟨3, LATEST⟩ := by decide
  have hsize : (s.fs.attrs ⟨3, LATEST⟩).size.toNat = 5 := by decide
  have hseed : (s.fs.attrs ⟨3, LATEST⟩).contentSeed = 3 := by decide
  obtain ⟨hpath, -, hrest⟩ := @past_files h (fun _ => 0) (fun _ _ _ => 0) (fun _ => 0) s [[97], [98]] hs [] (by decide) (fun _ => t)
    (fun _ => ht) (by decide) (by decide) (by decide) 7 (by decide)
  obtain ⟨hattrs, hcopy⟩ := hrest _ hwalk
  have hbytes := (hcopy addGen {} 2 3 (by decide) (by decide) rfl rfl (by decide) (fun _ => hcfg) (by decide)).1
  refine ⟨?_, (congrArg Attrs.size (hattrs 0)).trans (by decide), ?_⟩
  · have hgot := hpath 0
    rw [hwalk] at hgot
    exact congrArg (Option.map Prod.fst) hgot
  · rw [hsize, hseed] at hbytes
    exact hbytes

end Server

end Prfs
