import Prfs.ListingNames
import Prfs.ParentPaths
import Prfs.SerialCompounds
import Prfs.WireCalls

namespace Prfs

namespace PrfsStore

/-- The directory holds the other handle under a name: an entry of its view, its snapshot directory where it is live, or, where it
is a snapshot directory itself, its object in a sealed view. -/
def Holds (s : PrfsStore) (d : Node) (name : Bytes) (c : Node) : Prop :=
  (isSnapDir d.id = false ∧ c.snap = d.snap ∧ (viewAt s.kv (s.rr d.snap)).entry d.id name = some c.id) ∨
  (isSnapDir d.id = false ∧ d.snap = LATEST ∧ name = SNAPSHOT_NAME ∧ (viewAt s.kv s.cur).IsDir d.id ∧
    c = ⟨d.id ||| SNAP_BIT, LATEST⟩) ∨
  (isSnapDir d.id = true ∧ c.id = snapBase d.id ∧ parseSnap name = some c.snap ∧ 1 ≤ c.snap ∧ c.snap < s.cur ∧
    s.existedAt c.id c.snap = true)

/-- A row of names leads from one handle to another. -/
inductive Leads (s : PrfsStore) : Node → List Bytes → Node → Prop
  | here {d : Node} : Leads s d [] d
  | down {d c n : Node} {name : Bytes} {names : List Bytes} : s.Holds d name c → Leads s c names n → Leads s d (name :: names) n

/-- The way down a path: where it ends, or over how many names it got and why it stops at the next. -/
def walk (s : PrfsStore) : Node → List Bytes → Except (Nat × Error) Node
  | d, [] => .ok d
  | d, name :: names =>
    if (s.attrs d).type ≠ .DIR then .error (0, .NOTDIR)
    else
      match s.lookup d name with
      | none => .error (0, .NOENT)
      | some c => (s.walk c names).mapError (fun e => (e.1 + 1, e.2))

variable {s : PrfsStore} {d c n : Node} {name : Bytes} {names : List Bytes}

theorem walk_cons (s : PrfsStore) (d : Node) (name : Bytes) (names : List Bytes) :
    s.walk d (name :: names) = (s.walk d [name]).bind fun c => (s.walk c names).mapError fun e => (e.1 + 1, e.2) := by
  rw [walk, walk]
  split_ifs
  · rfl
  · cases s.lookup d name with
    | none => rfl
    | some c => rfl

theorem Sound.walk_one (hs : s.Sound) (hc : s.walk d [name] = .ok c) : s.nodeById c.id c.snap = some c := by
  rw [walk] at hc
  split_ifs at hc
  cases hx : s.lookup d name with
  | none =>
    rw [hx] at hc
    cases hc
  | some x =>
    rw [hx] at hc
    cases hc
    exact hs.nodeById_of_lookup hx

/-- A walk stops within the path. -/
theorem walk_error_depth {e : Nat × Error} (h : s.walk d names = .error e) : e.1 < names.length ∧ e.2 ≠ .OK := by
  induction names generalizing d e with
  | nil => cases h
  | cons name names ih =>
    rw [walk] at h
    split_ifs at h
    · cases h
      exact ⟨Nat.succ_pos _, by decide⟩
    · cases hx : s.lookup d name with
      | none =>
        rw [hx] at h
        cases h
        exact ⟨Nat.succ_pos _, by decide⟩
      | some x =>
        rw [hx] at h
        dsimp only at h
        cases hw : s.walk x names with
        | ok y =>
          rw [hw] at h
          cases h
        | error f =>
          rw [hw] at h
          cases h
          obtain ⟨hlt, hbad⟩ := ih hw
          exact ⟨Nat.succ_lt_succ hlt, hbad⟩

theorem walk_one_error {e : Nat × Error} (h : s.walk d [name] = .error e) : e.1 = 0 ∧ e.2 ≠ .OK := by
  obtain ⟨hlt, hbad⟩ := walk_error_depth h
  exact ⟨Nat.lt_one_iff.mp hlt, hbad⟩

theorem dir_of_isDir (hd : isSnapDir d.id = false) (h : (viewAt s.kv (s.rr d.snap)).IsDir d.id) :
    (s.attrs d).type = .DIR := by
  obtain ⟨r, hr, htype⟩ := h
  rw [attrs_eq hd, hr, Option.getD_some]
  show FType.ofCode r.type = .DIR
  rw [htype]
  rfl

theorem Sound.dir_of_holds (hs : s.Sound) (h : s.Holds d name c) : (s.attrs d).type = .DIR := by
  rcases h with ⟨hd, -, he⟩ | ⟨hd, hl, -, hdir, -⟩ | ⟨hd, -⟩
  · exact dir_of_isDir hd ((hs.consistent _).dir he)
  · refine dir_of_isDir hd ?_
    rw [hl, rr_latest]
    exact hdir
  · unfold attrs readNode
    rw [hd]
    rfl

/-- A lookup finds what the directory holds. -/
theorem Run.lookup_iff (hs : Run empty s) : s.lookup d name = some c ↔ s.Holds d name c := by
  have hsound := hs.sound
  cases hd : isSnapDir d.id with
  | true =>
    unfold lookup Holds
    rw [hd]
    simp only [if_true, Bool.true_eq_false, false_and, false_or, true_and]
    cases hp : parseSnap name with
    | none => simp
    | some g =>
      dsimp only
      constructor
      · intro hc
        split_ifs at hc with hout
        rw [not_or, not_or, not_lt, not_le, not_not] at hout
        obtain rfl := Option.some.inj hc
        exact ⟨rfl, rfl, hout.1, hout.2.1, hout.2.2⟩
      · rintro ⟨hid, hg, hpos, hlt, hex⟩
        obtain rfl := Option.some.inj hg
        rw [hid] at hex
        rw [if_neg]
        · exact congrArg some (by rw [← hid])
        · rintro (hout | hout | hout)
          · exact absurd hpos (not_le.mpr hout)
          · exact absurd hlt (not_lt.mpr hout)
          · exact hout hex
  | false =>
    rw [lookup_view hd]
    unfold Holds
    rw [hd]
    simp only [Bool.false_eq_true, false_and, or_false, true_and]
    split_ifs with hsnap
    · obtain ⟨rfl, hl, hdir⟩ := hsnap
      rw [hl, rr_latest] at hdir ⊢
      constructor
      · intro hc
        exact .inr ⟨rfl, rfl, hdir, (Option.some.inj hc).symm⟩
      · rintro (⟨-, he⟩ | ⟨-, -, -, rfl⟩)
        · exact absurd rfl (hs.avoids _ _ _ he)
        · rfl
    · constructor
      · intro hc
        obtain ⟨x, hx, rfl⟩ := Option.map_eq_some_iff.mp hc
        exact .inl ⟨rfl, hx⟩
      · rintro (⟨hsn, he⟩ | ⟨hl, rfl, hdir, -⟩)
        · rw [he, Option.map_some, ← hsn]
        · rw [hl, rr_latest] at hsnap
          exact absurd ⟨rfl, rfl, hdir⟩ hsnap

theorem Run.walk_ok (hs : Run empty s) : s.walk d names = .ok n ↔ s.Leads d names n := by
  induction names generalizing d with
  | nil =>
    constructor
    · intro h
      cases h
      exact .here
    · intro h
      cases h
      rfl
  | cons name names ih =>
    rw [walk]
    constructor
    · intro h
      split_ifs at h
      cases hc : s.lookup d name with
      | none =>
        rw [hc] at h
        cases h
      | some c =>
        rw [hc] at h
        dsimp only at h
        cases hw : s.walk c names with
        | error e =>
          rw [hw] at h
          cases h
        | ok x =>
          rw [hw] at h
          cases h
          exact .down (hs.lookup_iff.mp hc) (ih.mp hw)
    · rintro (_ | ⟨hc, hn⟩)
      rw [if_neg (by rw [hs.sound.dir_of_holds hc]; exact fun hne => hne rfl), hs.lookup_iff.mpr hc]
      dsimp only
      rw [ih.mpr hn]
      rfl

/-- A walk that stops has come to a handle that holds nothing under the next name. -/
theorem Run.walk_error (hs : Run empty s) {i : Nat} {e : Error} (h : s.walk d names = .error (i, e)) :
    ∃ x name, names[i]? = some name ∧ s.Leads d (names.take i) x ∧ (∀ c, ¬ s.Holds x name c) ∧
      e = if (s.attrs x).type = .DIR then .NOENT else .NOTDIR := by
  induction names generalizing d i with
  | nil => cases h
  | cons name names ih =>
    rw [walk] at h
    split_ifs at h with hdir
    · cases h
      refine ⟨d, name, rfl, .here, fun c hc => hdir (hs.sound.dir_of_holds hc), ?_⟩
      rw [if_neg hdir]
    · rw [not_not] at hdir
      cases hc : s.lookup d name with
      | none =>
        rw [hc] at h
        cases h
        refine ⟨d, name, rfl, .here, fun c hh => ?_, (if_pos hdir).symm⟩
        rw [hs.lookup_iff.mpr hh] at hc
        cases hc
      | some c =>
        rw [hc] at h
        dsimp only at h
        cases hw : s.walk c names with
        | ok x =>
          rw [hw] at h
          cases h
        | error f =>
          rw [hw] at h
          obtain ⟨j, f⟩ := f
          cases h
          obtain ⟨x, next, hnext, hleads, hnone, he⟩ := ih hw
          exact ⟨x, next, hnext, .down (hs.lookup_iff.mp hc) hleads, hnone, he⟩

end PrfsStore

namespace NfsV3

def lookupArgs (d : Node) (name : Bytes) : List Item := [.fh d.id d.snap, .str name]

def lookupCall (xid : UInt32) (d : Node) (name : Bytes) : Bytes := callBytes xid PROG_NFS NFS_V3 3 (lookupArgs d name)

def mntCall (xid : UInt32) (path : Bytes) : Bytes := callBytes xid PROG_MOUNT MOUNT_V3 1 [.str path]

/-- The handle behind the status of a result, or the status where it is not OK. -/
def handleIn (result : Bytes) : Option (Except UInt32 Node) :=
  (XdrType.takeWord result).bind fun st =>
    if st.1 = 0 then (takeHandle st.2).map fun x => .ok x.1 else some (.error st.1)

/-- A client goes down a path with one LOOKUP a name: the handle, or over how many names it got and the status of the next. -/
def clientWalk (serve : Framing.Service NfsV3 UInt8 Bytes) (xid : UInt32) :
    NfsV3 → Node → List Bytes → Option (Except (Nat × UInt32) Node × NfsV3)
  | v, d, [] => some (.ok d, v)
  | v, d, name :: names =>
    (serve v (lookupCall xid d name)).bind fun x =>
      ((resultIn xid x.1).bind handleIn).bind fun
        | .ok c => (clientWalk serve xid x.2 c names).map fun y => (y.1.mapError fun e => (e.1 + 1, e.2), y.2)
        | .error st => some (.error (0, st), x.2)

/-- The same from the handle that a mount gives. -/
def clientPath (serve : Framing.Service NfsV3 UInt8 Bytes) (xid : UInt32) (v : NfsV3) (names : List Bytes) :
    Option (Except (Nat × UInt32) Node × NfsV3) :=
  (serve v (mntCall xid (ascii ['/']))).bind fun x =>
    ((resultIn xid x.1).bind handleIn).bind fun
      | .ok root => clientWalk serve xid x.2 root names
      | .error st => some (.error (0, st), x.2)

section Walks

variable {h : Host} {beyond : Nat → UInt8} {v : NfsV3} {d c : Node} {name : Bytes} {names : List Bytes} {xid : UInt32}

theorem handleIn_error {st : Nfsstat3} {w : Writer} (hst : st ≠ .ok) (hw : (({} : Writer).u32 st.code).Pre w) :
    handleIn w.v = some (.error st.code) := by
  obtain ⟨rest, hrest⟩ := hw
  have hne : st.code ≠ 0 := by cases st <;> first | exact absurd rfl hst | decide
  have hv : w.v = word st.code ++ rest := hrest.symm
  rw [handleIn, hv, XdrType.takeWord_word, Option.bind_some]
  exact if_neg hne

theorem handleIn_handle {w : Writer} (hw : ((({} : Writer).u32 0).fh c.id c.snap).Pre w) : handleIn w.v = some (.ok c) := by
  obtain ⟨rest, hrest⟩ := hw
  have hv : w.v = word 0 ++ (Reader.handle c.id c.snap ++ rest) := by
    rw [← hrest, Writer.fh_eq, ← List.append_assoc]
    rfl
  rw [handleIn, hv, XdrType.takeWord_word, Option.bind_some, if_pos rfl, takeHandle_handle]
  rfl

theorem dispatch_lookup {m : Msg} {r : Reader} {cred : Cred} : dispatch h v m r PROG_NFS NFS_V3 3 cred = nfsLookup h v m r {} := by
  have hrun : run h v m r PROG_NFS NFS_V3 3 cred = nfsLookup h v m r {} := rfl
  have hstill : ¬ (PROG_NFS = PROG_NFS ∧ (Proc3.ofCode 3).any Proc3.isMutating = true ∧ h.advance = true) :=
    fun hh => Bool.false_ne_true hh.2.1
  unfold dispatch
  dsimp only
  rw [if_neg hstill, hrun]

theorem lookup_reads {m : Msg} {r : Reader} (hname : name.length ≤ 2 ^ 32 - 4)
    (hr : r.Ahead m ((lookupArgs d name).flatMap Item.encode)) (hok : r.ok = true) :
    ∃ r1 r2, r.fh3 m = (some (d.id, d.snap), r1) ∧ r1.str m = (name, r2) ∧ r2.ok = true := by
  rw [lookupArgs, List.flatMap_cons, List.flatMap_cons, List.flatMap_nil] at hr
  obtain ⟨r1, hfh, h1, hok1, -⟩ := hr.fh3 hok
  obtain ⟨r2, hstr, -, hok2⟩ := h1.string hname hok1
  exact ⟨r1, r2, hfh, hstr, hok2⟩

/-- A LOOKUP from a handle that is found answers with the walk over the one name. -/
theorem nfsLookup_walk (hd : v.fs.nodeById d.id d.snap = some d) (hname : name.length ≤ 2 ^ 32 - 4) :
    ∃ w : Writer, (∀ (m : Msg) (r : Reader), r.Ahead m ((lookupArgs d name).flatMap Item.encode) → r.ok = true →
      nfsLookup h v m r {} = (.success, w, v)) ∧
      handleIn w.v = some ((v.fs.walk d [name]).mapError fun e => (toNfsStat e.2).code) := by
  rw [PrfsStore.walk]
  by_cases htype : (v.fs.attrs d).type ≠ .DIR
  · rw [if_pos htype]
    refine ⟨encodePostOp h v.fs (({} : Writer).u32 Nfsstat3.notdir.code) (some d), fun m r hr hok => ?_, ?_⟩
    · obtain ⟨r1, r2, hfh, hstr, hok2⟩ := lookup_reads hname hr hok
      unfold nfsLookup
      rw [hfh]
      dsimp only
      rw [hstr]
      dsimp only
      rw [hok2, hd]
      dsimp only
      rw [if_pos htype]
      rfl
    · exact @handleIn_error .notdir _ (by decide) (pre_encodePostOp (Writer.Pre.refl _) _)
  · rw [if_neg htype]
    cases hc : v.fs.lookup d name with
    | none =>
      refine ⟨encodePostOp h v.fs (({} : Writer).u32 Nfsstat3.noent.code) (some d), fun m r hr hok => ?_, ?_⟩
      · obtain ⟨r1, r2, hfh, hstr, hok2⟩ := lookup_reads hname hr hok
        unfold nfsLookup
        rw [hfh]
        dsimp only
        rw [hstr]
        dsimp only
        rw [hok2, hd]
        dsimp only
        rw [if_neg htype, hc]
        rfl
      · exact @handleIn_error .noent _ (by decide) (pre_encodePostOp (Writer.Pre.refl _) _)
    | some c =>
      refine ⟨encodePostOp h v.fs (encodePostOp h v.fs ((({} : Writer).u32 Nfsstat3.ok.code).fh c.id c.snap) (some c)) (some d),
        fun m r hr hok => ?_, ?_⟩
      · obtain ⟨r1, r2, hfh, hstr, hok2⟩ := lookup_reads hname hr hok
        unfold nfsLookup
        rw [hfh]
        dsimp only
        rw [hstr]
        dsimp only
        rw [hok2, hd]
        dsimp only
        rw [if_neg htype, hc]
        rfl
      · exact handleIn_handle (pre_encodePostOp (pre_encodePostOp (Writer.Pre.refl _) _) _)

theorem lookup_served (hd : v.fs.nodeById d.id d.snap = some d) (hname : name.length ≤ 0xFFFB9) :
    ∃ frame, connection h beyond v (lookupCall xid d name) = some (frame, v) ∧
      (resultIn xid frame).bind handleIn = some ((v.fs.walk d [name]).mapError fun e => (toNfsStat e.2).code) := by
  have hstr := Item.str_length_le name
  have hlen : (lookupCall xid d name).length ≤ 0x100000 := by
    rw [lookupCall, callBytes_length, lookupArgs, List.flatMap_cons, List.flatMap_cons, List.flatMap_nil, List.length_append,
      List.append_nil, Item.fh_length]
    omega
  obtain ⟨w, hw, hhandle⟩ := @nfsLookup_walk h v d name hd (by omega)
  refine ⟨resultFrame xid w.v, connection_call hlen fun m r hr hok => dispatch_lookup.trans (hw m r hr hok), ?_⟩
  rw [resultIn_frame, Option.bind_some, hhandle]

/-- A client that goes down a path walks it in the store. -/
theorem clientWalk_eq (hs : v.fs.Sound) (hd : v.fs.nodeById d.id d.snap = some d) (hnames : ∀ n ∈ names, n.length ≤ 0xFFFB9) :
    clientWalk (connection h beyond) xid v d names =
      some ((v.fs.walk d names).mapError fun e => (e.1, (toNfsStat e.2).code), v) := by
  induction names generalizing d with
  | nil => rfl
  | cons name names ih =>
    obtain ⟨frame, hframe, hhandle⟩ := @lookup_served h beyond v d name xid hd (hnames name List.mem_cons_self)
    rw [clientWalk, hframe, Option.bind_some]
    dsimp only
    rw [hhandle, Option.bind_some, v.fs.walk_cons d name names]
    cases hone : v.fs.walk d [name] with
    | error e =>
      obtain ⟨hzero, -⟩ := PrfsStore.walk_one_error hone
      dsimp only [Except.mapError, Except.bind]
      rw [hzero]
    | ok c =>
      dsimp only [Except.mapError, Except.bind]
      rw [ih (hs.walk_one hone) fun n hn => hnames n (List.mem_cons_of_mem name hn)]
      dsimp only [Option.map_some]
      cases v.fs.walk c names with
      | ok n => rfl
      | error e => rfl

theorem mnt_served (h : Host) (beyond : Nat → UInt8) (v : NfsV3) (xid : UInt32) :
    ∃ frame, connection h beyond v (mntCall xid (ascii ['/'])) = some (frame, v) ∧
      (resultIn xid frame).bind handleIn = some (.ok v.fs.rwRoot) := by
  have hlen : (mntCall xid (ascii ['/'])).length ≤ 0x100000 := by
    rw [mntCall, callBytes_length]
    decide
  refine ⟨resultFrame xid ((((({} : Writer).u32 0).fh v.fs.rwRoot.id LATEST).u32 2).u32 0 |>.u32 1).v, ?_, ?_⟩
  · refine connection_call hlen fun m r hr hok => ?_
    rw [List.flatMap_cons, List.flatMap_nil] at hr
    obtain ⟨r1, hstr, -, hok1⟩ := hr.string (by decide) hok
    have hrun : run h v m r PROG_MOUNT MOUNT_V3 1 {} = mountMnt v m r {} := rfl
    have hprog : ¬ (PROG_MOUNT = PROG_NFS ∧ (Proc3.ofCode 1).any Proc3.isMutating = true ∧ h.advance = true) :=
      fun hh => absurd hh.1 (by decide)
    unfold dispatch
    dsimp only
    rw [if_neg hprog, hrun]
    unfold mountMnt
    rw [hstr]
    dsimp only
    rw [hok1]
    rfl
  · rw [resultIn_frame, Option.bind_some]
    exact handleIn_handle (c := v.fs.rwRoot) (((Writer.Pre.refl _).u32 _).u32 _ |>.u32 _)

end Walks

end NfsV3

namespace NfsV4

def lookupOps (names : List Bytes) : List Item := names.flatMap fun name => [.u32 15, .str name]

/-- From the root, a LOOKUP for each name, and the handle. -/
def pathOps (names : List Bytes) : List Item := .u32 24 :: (lookupOps names ++ [.u32 10])

def pathCall (xid : UInt32) (names : List Bytes) : Bytes :=
  compoundBytes xid (UInt32.ofNat (names.length + 2)) (pathOps names)

/-- The handle in the last of a row of results, or how many LOOKUPs got over their names and the status of the next. -/
def pathIn (depth : Nat) (result : Bytes) : Option (Except (Nat × UInt32) Node) :=
  (XdrType.takeWord result).bind fun st =>
    (XdrType.takeWord st.2).bind fun tag =>
      (XdrType.takeWord tag.2).bind fun count =>
        if st.1 = 0 then (takeHandle (count.2.drop (8 * (depth + 2)))).map fun x => .ok x.1
        else some (.error (count.1.toNat - 2, st.1))

/-- A client goes down a path with one COMPOUND. -/
def clientPath (serve : Framing.Service (Server4 × Nat) UInt8 Bytes) (xid : UInt32) (s : Server4 × Nat) (names : List Bytes) :
    Option (Except (Nat × UInt32) Node × Server4 × Nat) :=
  (serve s (pathCall xid names)).bind fun x =>
    ((resultIn xid x.1).bind (pathIn names.length)).map fun y => (y, x.2)

theorem lookupOps_cons (name : Bytes) (names : List Bytes) : (lookupOps (name :: names)).flatMap Item.encode =
    word 15 ++ ((Item.str name).encode ++ (lookupOps names).flatMap Item.encode) := rfl

namespace Call4

section Loop

variable {h : Host} {hash : Bytes → UInt64} {pos : Nat → WalkOrder} {m : Msg} {c : Call4} {d : Node} {name : Bytes}
  {names : List Bytes} {bs : Bytes} {left done : Nat}

/-- A LOOKUP moves the current handle as the walk over the one name does. -/
theorem execOp_lookup (hd : c.fs.nodeById d.id d.snap = some d) (hc : c.cfh = some d) (hname : name.length ≤ 2 ^ 32 - 4)
    (hr : c.r.Ahead m (word 15 ++ ((Item.str name).encode ++ bs))) (hok : c.r.ok = true) :
    ∃ r, r.Ahead m bs ∧ r.ok = true ∧
      ∀ p, let t := execOp h hash p m c
        match c.fs.walk d [name] with
        | .ok x => t.st = .ok ∧ t.after = { c with cfh := some x, r := r, w := (c.w.u32 15).u32 0 }
        | .error e => t.st = toNfs4 e.2 ∧ t.after = { c with r := r, w := (c.w.u32 15).u32 (toNfs4 e.2).code } := by
  obtain ⟨hop, h1, hok1⟩ := hr.u32
  obtain ⟨r, hstr, h2, hok2⟩ := h1.string hname (hok1.trans hok)
  refine ⟨r, h2, hok2, fun p => ?_⟩
  have hcode : Op4.ofCode 15 = some .lookup := by decide
  unfold execOp doOp
  dsimp only
  rw [hop, hcode]
  dsimp only
  unfold runOp opLookup
  dsimp only
  rw [hstr]
  unfold lookupIn cur
  dsimp only
  rw [hc, Option.bind_some, hd, PrfsStore.walk]
  dsimp only
  split_ifs with htype
  · exact ⟨rfl, rfl⟩
  · cases hx : c.fs.lookup d name with
    | none => exact ⟨rfl, rfl⟩
    | some x => exact ⟨rfl, rfl⟩

/-- The LOOKUPs of a path that is there are executed in turn, each with a result of two words. -/
theorem opsLoop_walked (hs : c.fs.Sound) (hd : c.fs.nodeById d.id d.snap = some d) (hc : c.cfh = some d)
    (hnames : ∀ n ∈ names, n.length ≤ 2 ^ 32 - 4) (hr : c.r.Ahead m ((lookupOps names).flatMap Item.encode ++ bs))
    (hok : c.r.ok = true) {x : Node} (hx : c.fs.walk d names = .ok x) :
    ∃ r w, r.Ahead m bs ∧ r.ok = true ∧ w.v.length = c.w.v.length + 8 * names.length ∧
      opsLoop h hash pos m (names.length + left) done .ok c =
        opsLoop h hash pos m left (done + names.length) .ok { c with cfh := some x, r := r, w := w } := by
  induction names generalizing c d done with
  | nil =>
    cases hx
    refine ⟨c.r, c.w, hr, hok, rfl, ?_⟩
    rw [← hc, List.length_nil, Nat.zero_add, Nat.add_zero]
  | cons name names ih =>
    rw [lookupOps_cons, List.append_assoc, List.append_assoc] at hr
    obtain ⟨r1, h1, hok1, hexec⟩ := @execOp_lookup h hash m c d name _ hd hc (hnames name List.mem_cons_self) hr hok
    rw [c.fs.walk_cons d name names] at hx
    cases hone : c.fs.walk d [name] with
    | error e =>
      rw [hone] at hx
      cases hx
    | ok y =>
      have hstep := hexec (pos done)
      rw [hone] at hstep hx
      obtain ⟨hst, hafter⟩ := hstep
      have hrest : c.fs.walk y names = .ok x := by
        dsimp only [Except.bind] at hx
        cases hy : c.fs.walk y names with
        | error e =>
          rw [hy] at hx
          cases hx
        | ok z =>
          rw [hy] at hx
          exact hx
      have hwords : ((c.w.u32 15).u32 0).v.length = c.w.v.length + 8 := by
        simp [Writer.u32, Writer.append, word]
      obtain ⟨r, w, hahead, hok', hlen, hloop⟩ := @ih { c with cfh := some y, r := r1, w := (c.w.u32 15).u32 0 } y (done + 1) hs
        (hs.walk_one hone) rfl (fun n hn => hnames n (List.mem_cons_of_mem name hn)) h1 hok1 hrest
      refine ⟨r, w, hahead, hok', ?_, ?_⟩
      · rw [hlen, hwords, List.length_cons]
        omega
      · rw [List.length_cons, show names.length + 1 + left = names.length + left + 1 by omega, opsLoop_succ hok]
        dsimp only
        rw [if_pos hst, hafter, hloop, show done + 1 + names.length = done + (names.length + 1) by omega]

/-- The first LOOKUP that finds nothing ends the COMPOUND. -/
theorem opsLoop_stopped (hs : c.fs.Sound) (hd : c.fs.nodeById d.id d.snap = some d) (hc : c.cfh = some d)
    (hnames : ∀ n ∈ names, n.length ≤ 2 ^ 32 - 4) (hr : c.r.Ahead m ((lookupOps names).flatMap Item.encode ++ bs))
    (hok : c.r.ok = true) {e : Nat × Error} (he : c.fs.walk d names = .error e) :
    ∃ c', c'.r.ok = true ∧ (c'.v = c.v ∧ c'.fs = c.fs ∧ c'.ckName = c.ckName) ∧
      opsLoop h hash pos m (names.length + left) done .ok c = (toNfs4 e.2, done + e.1 + 1, c') := by
  induction names generalizing c d done e with
  | nil => cases he
  | cons name names ih =>
    rw [lookupOps_cons, List.append_assoc, List.append_assoc] at hr
    obtain ⟨r1, h1, hok1, hexec⟩ := @execOp_lookup h hash m c d name _ hd hc (hnames name List.mem_cons_self) hr hok
    have hstep := hexec (pos done)
    rw [List.length_cons, show names.length + 1 + left = names.length + left + 1 by omega, opsLoop_succ hok]
    rw [c.fs.walk_cons d name names] at he
    cases hone : c.fs.walk d [name] with
    | error f =>
      rw [hone] at hstep he
      obtain ⟨hst, hafter⟩ := hstep
      obtain ⟨hzero, hbad⟩ := PrfsStore.walk_one_error hone
      cases he
      have hne : toNfs4 e.2 ≠ .ok := by
        generalize e.2 = g at hbad
        cases g <;> first | exact absurd rfl hbad | decide
      refine ⟨(execOp h hash (pos done) m c).after, ?_, ?_, ?_⟩
      · rw [hafter]
        exact hok1
      · rw [hafter]
        exact ⟨rfl, rfl, rfl⟩
      · dsimp only
        rw [hst, if_neg hne, hzero]
    | ok y =>
      rw [hone] at hstep he
      obtain ⟨hst, hafter⟩ := hstep
      dsimp only [Except.bind] at he
      cases hy : c.fs.walk y names with
      | ok z =>
        rw [hy] at he
        cases he
      | error f =>
        rw [hy] at he
        cases he
        obtain ⟨c', hok', hsame, hloop⟩ := @ih { c with cfh := some y, r := r1, w := (c.w.u32 15).u32 0 } y (done + 1) hs
          (hs.walk_one hone) rfl (fun n hn => hnames n (List.mem_cons_of_mem name hn)) h1 hok1 f hy
        refine ⟨c', hok', hsame, ?_⟩
        dsimp only
        rw [if_pos hst, hafter, hloop, show done + 1 + f.1 = done + (f.1 + 1) by omega]

theorem execOp_putrootfh (hr : c.r.Ahead m (word 24 ++ bs)) (hok : c.r.ok = true) :
    ∃ r, r.Ahead m bs ∧ r.ok = true ∧ ∀ p, (execOp h hash p m c).st = .ok ∧
      (execOp h hash p m c).after = { c with cfh := some c.fs.rwRoot, r := r, w := (c.w.u32 24).u32 0 } := by
  obtain ⟨hop, h1, hok1⟩ := hr.u32
  have hcode : Op4.ofCode 24 = some .putrootfh := by decide
  refine ⟨(c.r.u32 m).2, h1, hok1.trans hok, fun p => ?_⟩
  unfold execOp doOp
  dsimp only
  rw [hop, hcode]
  exact ⟨rfl, rfl⟩

theorem execOp_getfh {x : Node} (hc : c.cfh = some x) (hr : c.r.Ahead m (word 10 ++ bs)) (hok : c.r.ok = true) :
    ∃ r, r.ok = true ∧ ∀ p, (execOp h hash p m c).st = .ok ∧
      (execOp h hash p m c).after = { c with r := r, w := ((c.w.u32 10).u32 0).fh x.id x.snap } := by
  obtain ⟨hop, -, hok1⟩ := hr.u32
  have hcode : Op4.ofCode 10 = some .getfh := by decide
  refine ⟨(c.r.u32 m).2, hok1.trans hok, fun p => ?_⟩
  unfold execOp doOp
  dsimp only
  rw [hop, hcode]
  dsimp only
  unfold runOp opGetfh
  dsimp only
  rw [hc]
  exact ⟨rfl, rfl⟩

end Loop

end Call4

theorem pathIn_handle {depth : Nat} {x : Node} {results : Bytes} (hlen : results.length = 8 * (depth + 2)) :
    pathIn depth (compoundResult .ok (depth + 2) (results ++ Reader.handle x.id x.snap)) = some (.ok x) := by
  have hhandle := takeHandle_handle x.id x.snap []
  rw [List.append_nil] at hhandle
  rw [pathIn, compoundResult, XdrType.takeWord_word, Option.bind_some]
  dsimp only
  rw [XdrType.takeWord_word, Option.bind_some]
  dsimp only
  rw [XdrType.takeWord_word, Option.bind_some]
  dsimp only
  rw [if_pos (show Nfsstat4.ok.code = 0 from rfl), List.drop_left' hlen, hhandle]
  rfl

theorem pathIn_stopped {depth i : Nat} {e : Error} {results : Bytes} (he : e ≠ .OK) (hi : i + 2 < 2 ^ 32) :
    pathIn depth (compoundResult (toNfs4 e) (i + 2) results) = some (.error (i, (toNfs4 e).code)) := by
  have hne : (toNfs4 e).code ≠ 0 := by cases e <;> first | exact absurd rfl he | decide
  rw [pathIn, compoundResult, XdrType.takeWord_word, Option.bind_some]
  dsimp only
  rw [XdrType.takeWord_word, Option.bind_some]
  dsimp only
  rw [XdrType.takeWord_word, Option.bind_some]
  dsimp only
  rw [if_neg hne, XdrType.toNat_ofNat hi]
  rfl

section Client

variable {h : Host} {hash : Bytes → UInt64} {pos : Nat → WalkOrder} {m : Msg} {s : Server4} {names : List Bytes} {r : Reader}

/-- The COMPOUND of a path that is there ends with its handle. -/
theorem path_walked (hs : s.fs.Sound) (hnames : ∀ n ∈ names, n.length ≤ 2 ^ 32 - 4)
    (hr : r.Ahead m ((pathOps names).flatMap Item.encode)) (hok : r.ok = true) {x : Node}
    (hx : s.fs.walk s.fs.rwRoot names = .ok x) :
    ∃ c : Call4, c.r.ok = true ∧ ((c.v = s.v ∧ c.fs = s.fs ∧ c.ckName = s.ckName) ∧
        ∃ results, c.w.v = results ++ Reader.handle x.id x.snap ∧ results.length = 8 * (names.length + 2)) ∧
      Call4.opsLoop h hash pos m (names.length + 2) 0 .ok { v := s.v, fs := s.fs, ckName := s.ckName, r } =
        (.ok, names.length + 2, c) := by
  have hops : (pathOps names).flatMap Item.encode = word 24 ++ ((lookupOps names).flatMap Item.encode ++ word 10) := by
    rw [pathOps, List.flatMap_cons, List.flatMap_append]
    rfl
  rw [hops] at hr
  obtain ⟨r1, h1, hok1, hput⟩ := @Call4.execOp_putrootfh h hash m { v := s.v, fs := s.fs, ckName := s.ckName, r } _ hr hok
  obtain ⟨hst, hafter⟩ := hput (pos 0)
  obtain ⟨r2, w, h2, hok2, hlen, hloop⟩ := @Call4.opsLoop_walked h hash pos m
    { v := s.v, fs := s.fs, ckName := s.ckName, cfh := some s.fs.rwRoot, r := r1, w := (({} : Writer).u32 24).u32 0 }
    s.fs.rwRoot names (word 10) 1 1 hs hs.nodeById_root rfl hnames h1 hok1 x hx
  rw [← List.append_nil (word 10)] at h2
  obtain ⟨r3, hok3, hget⟩ := @Call4.execOp_getfh h hash m
    { v := s.v, fs := s.fs, ckName := s.ckName, cfh := some x, r := r2, w := w } [] x rfl h2 hok2
  obtain ⟨hst3, hafter3⟩ := hget (pos (1 + names.length))
  refine ⟨{ v := s.v, fs := s.fs, ckName := s.ckName, cfh := some x, r := r3, w := ((w.u32 10).u32 0).fh x.id x.snap }, hok3,
    ⟨⟨rfl, rfl, rfl⟩, ((w.u32 10).u32 0).v, ?_, ?_⟩, ?_⟩
  · rw [Writer.fh_eq]
    rfl
  · have hwords : ((w.u32 10).u32 0).v.length = w.v.length + 8 := by
      simp [Writer.u32, Writer.append, word]
    have hstart : ((({} : Writer).u32 24).u32 0).v.length = 8 := rfl
    dsimp only at hlen
    rw [hstart] at hlen
    omega
  · rw [show names.length + 2 = names.length + 1 + 1 from rfl, Call4.opsLoop_succ hok]
    dsimp only
    rw [if_pos hst, hafter, hloop, @Call4.opsLoop_succ h hash _ m 0 _ _ _ hok2]
    dsimp only
    rw [if_pos hst3, hafter3, show 1 + names.length + 1 = names.length + 1 + 1 by omega]
    rfl

theorem path_stopped (hs : s.fs.Sound) (hnames : ∀ n ∈ names, n.length ≤ 2 ^ 32 - 4)
    (hr : r.Ahead m ((pathOps names).flatMap Item.encode)) (hok : r.ok = true) {e : Nat × Error}
    (he : s.fs.walk s.fs.rwRoot names = .error e) :
    ∃ c : Call4, c.r.ok = true ∧ (c.v = s.v ∧ c.fs = s.fs ∧ c.ckName = s.ckName) ∧
      Call4.opsLoop h hash pos m (names.length + 2) 0 .ok { v := s.v, fs := s.fs, ckName := s.ckName, r } =
        (toNfs4 e.2, e.1 + 2, c) := by
  have hops : (pathOps names).flatMap Item.encode = word 24 ++ ((lookupOps names).flatMap Item.encode ++ word 10) := by
    rw [pathOps, List.flatMap_cons, List.flatMap_append]
    rfl
  rw [hops] at hr
  obtain ⟨r1, h1, hok1, hput⟩ := @Call4.execOp_putrootfh h hash m { v := s.v, fs := s.fs, ckName := s.ckName, r } _ hr hok
  obtain ⟨hst, hafter⟩ := hput (pos 0)
  obtain ⟨c, hc, hsame, hloop⟩ := @Call4.opsLoop_stopped h hash pos m
    { v := s.v, fs := s.fs, ckName := s.ckName, cfh := some s.fs.rwRoot, r := r1, w := (({} : Writer).u32 24).u32 0 }
    s.fs.rwRoot names (word 10) 1 1 hs hs.nodeById_root rfl hnames h1 hok1 e he
  refine ⟨c, hc, hsame, ?_⟩
  rw [show names.length + 2 = names.length + 1 + 1 from rfl, Call4.opsLoop_succ hok]
  dsimp only
  rw [if_pos hst, hafter, hloop, show 1 + e.1 + 1 = e.1 + 2 by omega]

theorem clientPath_eq {pos : Nat → Nat → WalkOrder} {beyond : Nat → UInt8} {k : Nat} {xid : UInt32} (hs : s.fs.Sound)
    (hnames : ∀ n ∈ names, n.length ≤ 2 ^ 32 - 4)
    (hdepth : names.length ≤ 4094) (hlen : (pathCall xid names).length ≤ 0x200000) :
    clientPath (connection h hash pos beyond) xid (s, k) names =
      some ((s.fs.walk s.fs.rwRoot names).mapError fun e => (e.1, (toNfs4 e.2).code), (s, k + 1)) := by
  have hcount : (UInt32.ofNat (names.length + 2)).toNat = names.length + 2 := XdrType.toNat_ofNat (by omega)
  have hn : UInt32.ofNat (names.length + 2) ≤ 4096 := by
    rw [UInt32.le_iff_toNat_le, hcount]
    show names.length + 2 ≤ 4096
    omega
  cases hw : s.fs.walk s.fs.rwRoot names with
  | ok x =>
    obtain ⟨c, ⟨⟨hv, hfs, hck⟩, results, hres, hlength⟩, hserve⟩ := @connection_compound h hash pos beyond s k xid _ _ _ _ _ hlen hn
      fun m r hr hok => by rw [hcount]; exact path_walked hs hnames hr hok hw
    unfold clientPath
    rw [pathCall, hserve, Option.bind_some, resultIn_frame, Option.bind_some, hres, pathIn_handle hlength, hv, hfs, hck]
    rfl
  | error e =>
    obtain ⟨c, ⟨hv, hfs, hck⟩, hserve⟩ := @connection_compound h hash pos beyond s k xid _ _ _ _ _ hlen hn
      fun m r hr hok => by rw [hcount]; exact path_stopped hs hnames hr hok hw
    obtain ⟨hdeep, hbad⟩ := PrfsStore.walk_error_depth hw
    unfold clientPath
    rw [pathCall, hserve, Option.bind_some, resultIn_frame, Option.bind_some, pathIn_stopped hbad (by omega), hv, hfs, hck]
    rfl

end Client

end NfsV4

namespace Server

variable {h : Host} {hash : Bytes → UInt64} {pos : Nat → Nat → WalkOrder} {beyond : Nat → UInt8} {s : Server} {names : List Bytes}

/-- A mount and a LOOKUP for each name in version 3, and one COMPOUND in version 4, both walk a path in the store and change
nothing: they give the handle that its names lead to, or stop at the same name for the same reason. -/
theorem paths_agree (hs : PrfsStore.Run .empty s.fs) (hnames : ∀ n ∈ names, n.length ≤ 0xFFFB9) (hdepth : names.length ≤ 4094)
    {xid : UInt32} (hlen : (NfsV4.pathCall xid names).length ≤ 0x200000) (k : Nat) :
    let out := s.fs.walk s.fs.rwRoot names
    NfsV3.clientPath (NfsV3.connection h beyond) xid ⟨s.fs, s.names⟩ names =
      some (out.mapError fun e => (e.1, (toNfsStat e.2).code), ⟨s.fs, s.names⟩) ∧
    NfsV4.clientPath (NfsV4.connection h hash pos beyond) xid (s.server4, k) names =
      some (out.mapError fun e => (e.1, (toNfs4 e.2).code), (s.server4, k + 1)) ∧
    (∀ x, out = .ok x ↔ s.fs.Leads s.fs.rwRoot names x) ∧
    ∀ i e, out = .error (i, e) → ∃ x name, names[i]? = some name ∧ s.fs.Leads s.fs.rwRoot (names.take i) x ∧
      (∀ c, ¬ s.fs.Holds x name c) ∧ e = if (s.fs.attrs x).type = .DIR then .NOENT else .NOTDIR := by
  refine ⟨?_, ?_, fun x => hs.walk_ok, fun i e => hs.walk_error⟩
  · obtain ⟨frame, hframe, hhandle⟩ := NfsV3.mnt_served h beyond ⟨s.fs, s.names⟩ xid
    unfold NfsV3.clientPath
    rw [hframe, Option.bind_some, hhandle, Option.bind_some]
    exact @NfsV3.clientWalk_eq h beyond ⟨s.fs, s.names⟩ _ _ xid hs.sound hs.sound.nodeById_root hnames
  · have hshort : ∀ n ∈ names, n.length ≤ 2 ^ 32 - 4 := fun n hn => le_trans (hnames n hn) (by omega)
    exact @NfsV4.clientPath_eq h hash s.server4 names pos beyond k xid hs.sound hshort hdepth hlen

/-- A directory with the entry "a" that is itself a directory, a snapshot, and the entry removed. -/
def pastA : PrfsStore :=
  PrfsStore.empty.after [.mkdir, .link ⟨1, LATEST⟩ [97] ⟨2, LATEST⟩, .snapshot [], .unlink ⟨1, LATEST⟩ [97]]

set_option maxRecDepth 20000 in
/-- The path into the snapshot leads to the directory that was there, for both clients; the live path stops at its first name. -/
theorem paths_agree_past :
    (NfsV3.clientPath (NfsV3.connection {} fun _ => 0) 7 ⟨pastA, .empty⟩ [SNAPSHOT_NAME, [49], [97]]).map Prod.fst =
      some (.ok ⟨2, 1⟩) ∧
    (NfsV4.clientPath (NfsV4.connection {} (fun _ => 0) (fun _ _ _ => 0) fun _ => 0) 7 (({ fs := pastA } : Server).server4, 0)
      [SNAPSHOT_NAME, [49], [97]]).map Prod.fst = some (.ok ⟨2, 1⟩) ∧
    (NfsV3.clientPath (NfsV3.connection {} fun _ => 0) 7 ⟨pastA, .empty⟩ [[97], [98]]).map Prod.fst = some (.error (0, 2)) := by
  have hs : PrfsStore.Run .empty ({ fs := pastA } : Server).fs := PrfsStore.run_after (by decide)
  obtain ⟨h3, h4, -⟩ := @paths_agree {} (fun _ => 0) (fun _ _ _ => 0) (fun _ => 0) { fs := pastA } [SNAPSHOT_NAME, [49], [97]] hs
    (by decide) (by decide) 7 (by decide) 0
  obtain ⟨hgone, -⟩ := @paths_agree {} (fun _ => 0) (fun _ _ _ => 0) (fun _ => 0) { fs := pastA } [[97], [98]] hs
    (by decide) (by decide) 7 (by decide) 0
  have hpast : pastA.walk pastA.rwRoot [SNAPSHOT_NAME, [49], [97]] = .ok ⟨2, 1⟩ := by decide
  have hlive : pastA.walk pastA.rwRoot [[97], [98]] = .error (0, .NOENT) := by decide
  rw [hpast] at h3 h4
  rw [hlive] at hgone
  rw [h3, h4, hgone]
  exact ⟨rfl, rfl, rfl⟩

end Server

end Prfs
