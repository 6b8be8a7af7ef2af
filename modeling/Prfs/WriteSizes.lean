import Prfs.OpInert
import Prfs.TreeRemoval
import Prfs.XdrSafety

namespace Prfs

/-- A seed is never the zero that stands for no seed. -/
theorem mixSeed_ne_zero (seed off : UInt64) (data : Bytes) : mixSeed seed off data ≠ 0 := by
  unfold mixSeed
  dsimp only
  split_ifs with h
  · exact h
  · decide

/-- No data leaves a seed as it is only at two offsets. -/
theorem mixSeed_nil_eq_iff {seed off : UInt64} (hs : seed ≠ 0) :
    mixSeed seed off [] = seed ↔ off = 0x61C8864680B583EB ∨ seed = 1 ∧ off = 0x61C8864680B583EC := by
  have hoff : ∀ x : UInt64, off + 0x9E3779B97F4A7C15 = x ↔ off = x + 0x61C8864680B583EB := by
    intro x
    constructor
    · rintro rfl
      rw [UInt64.add_assoc]
      exact (UInt64.add_zero off).symm
    · rintro rfl
      rw [UInt64.add_assoc]
      exact UInt64.add_zero x
  have hmix : mixSeed seed off [] = seed ↔ off + 0x9E3779B97F4A7C15 = 0 ∨ seed = 1 ∧ off + 0x9E3779B97F4A7C15 = 1 := by
    unfold mixSeed
    rw [List.foldl_nil]
    generalize off + 0x9E3779B97F4A7C15 = k
    dsimp only
    split_ifs with hne
    · have hkeep : seed ^^^ k = seed ↔ k = 0 := by
        conv_lhs => rw [← UInt64.xor_zero (a := seed), UInt64.xor_assoc, UInt64.zero_xor]
        exact UInt64.xor_right_inj seed
      rw [hkeep]
      refine ⟨Or.inl, ?_⟩
      rintro (hk | ⟨rfl, rfl⟩)
      · exact hk
      · exact absurd rfl hne
    · obtain rfl : seed = k := UInt64.xor_eq_zero_iff.mp (not_not.mp hne)
      simp only [hs, false_or, and_self]
      exact eq_comm
  rw [hmix, hoff, hoff]
  rfl

/-- The size of a file once data has been written to it, the end of the data in 64 bits. -/
def grownSize (size off : UInt64) (data : Bytes) : UInt64 :=
  let stop := off + UInt64.ofNat data.length
  if size < stop then stop else size

theorem grownSize_toNat {size off : UInt64} {data : Bytes} (h : off.toNat + data.length < 2 ^ 64) :
    (grownSize size off data).toNat = max size.toNat (off.toNat + data.length) := by
  have hend : (off + UInt64.ofNat data.length).toNat = off.toNat + data.length := by
    rw [UInt64.toNat_add, UInt64.toNat_ofNat', Nat.add_mod_mod]
    exact Nat.mod_eq_of_lt h
  unfold grownSize
  dsimp only
  split_ifs with hlt
  · rw [hend]
    rw [UInt64.lt_iff_toNat_lt, hend] at hlt
    exact (max_eq_right hlt.le).symm
  · rw [UInt64.lt_iff_toNat_lt, hend] at hlt
    exact (max_eq_left (Nat.le_of_not_lt hlt)).symm

/-- No data grows a file up to its offset. -/
theorem grownSize_nil_eq_iff {size off : UInt64} : grownSize size off [] = size ↔ off ≤ size := by
  have hstop : off + UInt64.ofNat ([] : Bytes).length = off := UInt64.add_zero off
  unfold grownSize
  dsimp only
  rw [hstop]
  split_ifs with hlt
  · exact iff_of_false (ne_of_gt hlt) (not_le_of_gt hlt)
  · exact iff_of_true rfl (le_of_not_gt hlt)

theorem Reader.length_of_str {m : Msg} {r r' : Reader} {data : Bytes} (h : r.str m = (data, r')) :
    data.length < 2 ^ 32 := by
  obtain rfl : (r.str m).1 = data := congrArg Prod.fst h
  unfold Reader.str
  dsimp only
  split_ifs
  · simp
  · rw [Msg.slice_length]
    exact UInt32.toNat_lt _

namespace PrfsStore

variable {s : PrfsStore} {n : Node} {off : UInt64} {data : Bytes}

/-- A handle of a live regular file. -/
def LiveFile (s : PrfsStore) (n : Node) : Prop :=
  s.nodeById n.id LATEST = some n ∧ (s.attrs n).type = .REG

/-- A stored node has an id of its own and a type of the store. -/
theorem Sound.known (hs : s.Sound) {id : UInt64} {r : NodeRec} (hr : loadNode s.kv id s.cur = some r) :
    id ≠ 0 ∧ ∃ t : FType, r.type = t.code := by
  obtain ⟨a, ha, hi⟩ := hs
  have hview : (viewAt s.kv s.cur).node id = some r.bare := by simp [viewAt, hr]
  rw [ha.viewAt_eq] at hview
  obtain ⟨⟨hpos, -⟩, ht⟩ := hi.ids _ _ _ hview
  refine ⟨?_, ht⟩
  rintro rfl
  exact absurd hpos (by decide)

/-- A handle that is found has a record behind it. -/
theorem load_of_nodeById (hn : s.nodeById n.id n.snap = some n) (hl : n.snap = LATEST) (hd : isSnapDir n.id = false) :
    ∃ r, loadNode s.kv n.id s.cur = some r := by
  have hex : s.existedAt n.id s.cur = true := by
    by_contra hno
    simp [nodeById, hd, rr, hl, hno] at hn
  exact Option.isSome_iff_exists.mp hex

/-- A live regular file has a record of that type. -/
theorem LiveFile.load (h : s.LiveFile n) (hs : s.Sound) : n.snap = LATEST ∧ isSnapDir n.id = false ∧
    ∃ r, loadNode s.kv n.id s.cur = some r ∧ r.type = FType.REG.code := by
  obtain ⟨hn, ht⟩ := h
  have hl : n.snap = LATEST := nodeById_snap hn
  have hd : isSnapDir n.id = false := by
    have hne : (s.attrs n).type ≠ .DIR := by simp [ht]
    exact NfsV4.Call4.isSnapDir_of_type hne
  obtain ⟨r, hr⟩ := load_of_nodeById (by rwa [hl]) hl hd
  refine ⟨hl, hd, r, hr, ?_⟩
  obtain ⟨-, t, htype⟩ := hs.known hr
  have hreg : FType.ofCode r.type = .REG := by
    rw [← ht, attrs]
    simp [readNode, hd, rr, hl, hr]
  rw [htype, FType.ofCode_code] at hreg
  rw [htype, hreg]

theorem LiveFile.seed_ne_zero (h : s.LiveFile n) (hs : s.Sound) : (s.attrs n).contentSeed ≠ 0 := by
  obtain ⟨-, -, r, hr, -⟩ := h.load hs
  have hid := (hs.known hr).1
  unfold attrs
  dsimp only
  split_ifs with hspec
  · exact hspec.2
  · exact hid

/-- The record that a WRITE leaves. -/
theorem LiveFile.record (h : s.LiveFile n) (hs : s.Sound) (off : UInt64) (data : Bytes) :
    ∃ r, loadNode (writeData s n off data).kv n.id (writeData s n off data).cur = some r ∧ r.type = FType.REG.code ∧
      r.spec = mixSeed (s.attrs n).contentSeed off data ∧ r.size = grownSize (s.attrs n).size off data := by
  obtain ⟨hl, hd, r, hr, ht⟩ := h.load hs
  refine ⟨s.written n off data r, ?_, ?_, ?_, ?_⟩
  · rw [writeData_of_some hr hl hd]
    exact loadNode_withNode
  · simp only [written, if_pos ht]
    split_ifs <;> exact ht
  · simp only [written, if_pos ht]
    split_ifs <;> rfl
  · rw [attrs_size hr hl hd]
    simp only [written, grownSize, if_pos ht]
    split_ifs <;> rfl

/-- What a WRITE makes of the seed and of the size. -/
theorem LiveFile.written (h : s.LiveFile n) (hs : s.Sound) (off : UInt64) (data : Bytes) :
    ((writeData s n off data).attrs n).contentSeed = mixSeed (s.attrs n).contentSeed off data ∧
      ((writeData s n off data).attrs n).size = grownSize (s.attrs n).size off data := by
  obtain ⟨hl, hd, -⟩ := h.load hs
  obtain ⟨r, hr, ht, hseed, hsize⟩ := h.record hs off data
  have hread : (writeData s n off data).readNode n.id n.snap = r := by
    simp [readNode, hd, rr, hl, hr]
  constructor
  · simp only [attrs, hread, ht, hseed, mixSeed_ne_zero, ne_eq, not_false_eq_true, and_self, if_true]
  · simp only [attrs, hread, hsize]

end PrfsStore

theorem Writer.u32_append (w : Writer) (x : UInt32) (bs : Bytes) : (w.u32 x).append bs = w.append (word x ++ bs) := by
  simp [Writer.u32, Writer.append]

/-- The reply to a WRITE: after the count of the bytes written come twelve bytes, how they were committed and a verifier. -/
def Reports (w : Writer) (count : Nat) : Prop :=
  ∃ (w0 : Writer) (x : UInt32) (rest : Bytes), w = (w0.u32 x).append rest ∧ rest.length = 12 ∧ x.toNat = count

theorem reports_of_lt {len : Nat} (h : len < 2 ^ 32) (w : Writer) {rest : Bytes} (hr : rest.length = 12) :
    Reports ((w.u32 (UInt32.ofNat len)).append rest) len := by
  refine ⟨w, _, rest, rfl, hr, ?_⟩
  rw [UInt32.toNat_ofNat']
  exact Nat.mod_eq_of_lt h

namespace NfsV3

variable {v : NfsV3} {m : Msg} {r : Reader} {n : Node} {off : UInt64} {data : Bytes}

/-- The arguments of a WRITE to a live regular file. -/
def WritesTo (v : NfsV3) (m : Msg) (r : Reader) (n : Node) (off : UInt64) (data : Bytes) : Prop :=
  ∃ r1 r2 r3, r.fh3 m = (some (n.id, LATEST), r1) ∧ r1.u64 m = (off, r2) ∧
    ((r2.u32 m).2.u32 m).2.str m = (data, r3) ∧ r3.ok = true ∧ v.fs.LiveFile n

theorem nfsWrite_eq (h : Host) (ha : WritesTo v m r n off data) :
    let fs := writeData v.fs n off data
    nfsWrite live h v m r {} = answer { v with fs } (((((encodeWcc h fs (({} : Writer).u32 Nfsstat3.ok.code)
      (preOf v.fs (some n)) (some n)).u32 (UInt32.ofNat data.length)).u32 WRITE_FILE_SYNC).u32 0).u32 0) := by
  obtain ⟨r1, r2, r3, hfh, hoff, hdata, hok, hn, ht⟩ := ha
  unfold nfsWrite
  rw [hfh]
  dsimp only
  rw [hoff]
  dsimp only
  rw [hdata]
  simp [hok, hn, ht, live]

theorem nfsWrite_granted (h : Host) (ha : WritesTo v m r n off data) :
    Answered (nfsWrite live h v m r {}) .ok ∧ (nfsWrite live h v m r {}).2.2.fs = writeData v.fs n off data ∧
      Reports (nfsWrite live h v m r {}).2.1 data.length := by
  have hw := nfsWrite_eq h ha
  have hlen : data.length < 2 ^ 32 := by
    obtain ⟨r1, r2, r3, -, -, hdata, -⟩ := ha
    exact Reader.length_of_str hdata
  dsimp only at hw
  rw [hw]
  refine ⟨answered_answer ?_, by simp only [answer], ?_⟩
  · exact ((((pre_encodeWcc (.refl _) _ _).u32 _).u32 _).u32 _).u32 _
  · simp only [answer]
    rw [Writer.u32, Writer.u32_append, Writer.u32_append]
    exact reports_of_lt hlen _ rfl

end NfsV3

namespace NfsV4.Call4

variable {c : Call4} {m : Msg} {n : Node} {off : UInt64} {data : Bytes}

/-- The arguments of a WRITE to a live regular file that is the current filehandle. -/
def WritesTo (c : Call4) (m : Msg) (n : Node) (off : UInt64) (data : Bytes) : Prop :=
  ∃ r1 r2, (readStateid m c.r).2.u64 m = (off, r1) ∧ ((r1.u32 m).2.str m) = (data, r2) ∧ c.cfh = some n ∧ c.fs.LiveFile n

theorem opWrite_eq (ha : c.WritesTo m n off data) : ∃ r, c.opWrite live m =
    (refuses c.v (readStateid m c.r).1 n.id ACCESS_WRITE).elim
      ({ c with r, fs := writeData c.fs n off data }.exitWith .ok
        (fun w => zeros8 ((w.u32 (UInt32.ofNat data.length)).u32 2)))
      (fun st => { c with r }.exit st) := by
  obtain ⟨r1, r2, hoff, hdata, hcfh, hn, ht⟩ := ha
  have hl := PrfsStore.nodeById_snap hn
  have hcur : c.cur = some n := by simp [cur, hcfh, hl, hn]
  have hlive : c.liveCfh live = true := by simp [liveCfh, hcfh, hl, live]
  refine ⟨r2, ?_⟩
  unfold opWrite
  dsimp only
  rw [hoff]
  dsimp only
  rw [hdata]
  simp only [cur_r, hcur, liveCfh_r, hlive, ht, Bool.not_true, Bool.false_eq_true, reduceCtorEq, if_false]
  cases refuses c.v (readStateid m c.r).1 n.id ACCESS_WRITE with
  | some st => rfl
  | none => rfl

theorem opWrite_granted (ha : c.WritesTo m n off data)
    (hg : refuses c.v (readStateid m c.r).1 n.id ACCESS_WRITE = none) :
    (c.opWrite live m).1 = .ok ∧ (c.opWrite live m).2.fs = writeData c.fs n off data ∧
      Reports (c.opWrite live m).2.w data.length := by
  obtain ⟨r, hw⟩ := opWrite_eq ha
  have hlen : data.length < 2 ^ 32 := by
    obtain ⟨r1, r2, -, hdata, -⟩ := ha
    exact Reader.length_of_str hdata
  rw [hg, Option.elim_none] at hw
  rw [hw]
  refine ⟨rfl, rfl, ?_⟩
  simp only [exitWith, zeros8]
  rw [Writer.u32_append]
  exact reports_of_lt hlen _ rfl

theorem opWrite_denied (ha : c.WritesTo m n off data)
    (hg : refuses c.v (readStateid m c.r).1 n.id ACCESS_WRITE ≠ none) :
    (c.opWrite live m).1 ≠ .ok ∧ (c.opWrite live m).2.fs = c.fs := by
  obtain ⟨r, hw⟩ := opWrite_eq ha
  obtain ⟨st, hst⟩ := Option.ne_none_iff_exists'.mp hg
  rw [hst, Option.elim_some] at hw
  rw [hw]
  refine ⟨?_, rfl⟩
  rintro rfl
  rcases refuses_cases hst with h | h <;> cases h

end NfsV4.Call4

/-- A WRITE, as it meets the store: of version 3, or in a COMPOUND of version 4. -/
inductive WriteCall
  | v3 (h : Host) (ckName : OrdMap UInt64 Bytes) (m : Msg) (r : Reader)
  | v4 (c : NfsV4.Call4) (m : Msg)

namespace WriteCall

variable {q : WriteCall} {fs : PrfsStore} {n : Node} {off : UInt64} {data : Bytes}

/-- The request writes this data to this live regular file. -/
def To (fs : PrfsStore) (n : Node) (off : UInt64) (data : Bytes) : WriteCall → Prop
  | .v3 _ ckName m r => NfsV3.WritesTo ⟨fs, ckName⟩ m r n off data
  | .v4 c m => { c with fs }.WritesTo m n off data

/-- The stateid gives access; version 3 has none. -/
def Granted (n : Node) : WriteCall → Prop
  | .v3 .. => True
  | .v4 c m => NfsV4.refuses c.v (NfsV4.readStateid m c.r).1 n.id ACCESS_WRITE = none

/-- The store after the request. -/
def after (fs : PrfsStore) : WriteCall → PrfsStore
  | .v3 h ckName m r => (NfsV3.nfsWrite live h ⟨fs, ckName⟩ m r {}).2.2.fs
  | .v4 c m => ({ c with fs }.opWrite live m).2.fs

/-- The reply up to the end of the WRITE. -/
def reply (fs : PrfsStore) : WriteCall → Writer
  | .v3 h ckName m r => (NfsV3.nfsWrite live h ⟨fs, ckName⟩ m r {}).2.1
  | .v4 c m => ({ c with fs }.opWrite live m).2.w

/-- The request is answered OK. -/
def Ok (fs : PrfsStore) : WriteCall → Prop
  | .v3 h ckName m r => NfsV3.Answered (NfsV3.nfsWrite live h ⟨fs, ckName⟩ m r {}) .ok
  | .v4 c m => ({ c with fs }.opWrite live m).1 = .ok

theorem To.liveFile (h : q.To fs n off data) : fs.LiveFile n := by
  cases q with
  | v3 h' ckName m r =>
    obtain ⟨_, _, _, -, -, -, -, hf⟩ := h
    exact hf
  | v4 c m =>
    obtain ⟨_, _, -, -, -, hf⟩ := h
    exact hf

/-- A request that is granted writes its data and reports all of it. -/
theorem To.granted (h : q.To fs n off data) (hg : q.Granted n) :
    q.Ok fs ∧ q.after fs = writeData fs n off data ∧ Reports (q.reply fs) data.length := by
  cases q with
  | v3 h' ckName m r => exact NfsV3.nfsWrite_granted h' h
  | v4 c m => exact NfsV4.Call4.opWrite_granted h hg

/-- A request that is not granted is not answered OK and leaves the store as it is. -/
theorem To.not_granted (h : q.To fs n off data) (hg : ¬ q.Granted n) : ¬ q.Ok fs ∧ q.after fs = fs := by
  cases q with
  | v3 h' ckName m r => exact absurd trivial hg
  | v4 c m => exact NfsV4.Call4.opWrite_denied h hg

/-- What a WRITE is to do: if it is answered OK, the size is the larger of the old one and the exact end of the data, all of
the data is reported, and no data changes nothing; and it is refused where that end has no 64 bits. -/
structure Exact (q : WriteCall) (fs : PrfsStore) (n : Node) (off : UInt64) (data : Bytes) : Prop where
  size : q.Ok fs → ((q.after fs).attrs n).size.toNat = max (fs.attrs n).size.toNat (off.toNat + data.length)
  count : q.Ok fs → Reports (q.reply fs) data.length
  empty : q.Ok fs → data = [] → ((q.after fs).attrs n).size = (fs.attrs n).size ∧
    ((q.after fs).attrs n).contentSeed = (fs.attrs n).contentSeed
  refused : 2 ^ 64 ≤ off.toNat + data.length → ¬ q.Ok fs ∧ q.after fs = fs

/-- A WRITE does so exactly when its stateid is refused, or its end has 64 bits and it has data or is at one of the two offsets
that no data leaves alone, within the file. -/
theorem write_exact_iff (hs : PrfsStore.Run .empty fs) (ht : q.To fs n off data) :
    q.Exact fs n off data ↔ (q.Granted n → off.toNat + data.length < 2 ^ 64 ∧
      (data = [] → off ≤ (fs.attrs n).size ∧ (off = 0x61C8864680B583EB ∨
        (fs.attrs n).contentSeed = 1 ∧ off = 0x61C8864680B583EC))) := by
  by_cases hg : q.Granted n
  · obtain ⟨hok, hafter, hreply⟩ := ht.granted hg
    obtain ⟨hseed, hsize⟩ := ht.liveFile.written hs.sound off data
    have hmix := @mixSeed_nil_eq_iff _ off (ht.liveFile.seed_ne_zero hs.sound)
    rw [forall_prop_of_true hg]
    constructor
    · intro hx
      refine ⟨Nat.lt_of_not_le fun hle => (hx.refused hle).1 hok, ?_⟩
      rintro rfl
      obtain ⟨hsame, hkeep⟩ := hx.empty hok rfl
      rw [hafter, hsize, grownSize_nil_eq_iff] at hsame
      rw [hafter, hseed, hmix] at hkeep
      exact ⟨hsame, hkeep⟩
    · rintro ⟨hend, hnone⟩
      refine ⟨fun _ => ?_, fun _ => hreply, ?_, fun hle => absurd hend (Nat.not_lt.mpr hle)⟩
      · rw [hafter, hsize, grownSize_toNat hend]
      · rintro - rfl
        rw [hafter, hsize, hseed, grownSize_nil_eq_iff, hmix]
        exact hnone rfl
  · obtain ⟨hok, hafter⟩ := ht.not_granted hg
    exact iff_of_true ⟨fun h => absurd h hok, fun h => absurd h hok, fun h => absurd h hok, fun _ => ⟨hok, hafter⟩⟩
      fun h => absurd h hg

/-- A file of no size. -/
def oneFile : PrfsStore := PrfsStore.empty.after [.mkfile []]

/-- The arguments of a WRITE to that file. -/
def writeArgs (off : UInt64) (data : Bytes) : Bytes :=
  (((((({} : Writer).fh 2 LATEST).u64 off).u32 0).u32 0).str data).v

/-- A byte at the start. -/
def writeFirst : WriteCall := .v3 {} .empty ⟨writeArgs 0 [104], fun _ => 0, by decide⟩ {}

/-- A byte at the last offset. -/
def writeLast : WriteCall := .v3 {} .empty ⟨writeArgs 0xFFFFFFFFFFFFFFFF [104], fun _ => 0, by decide⟩ {}

/-- No data past the end of the file. -/
def writeNothing : WriteCall := .v3 {} .empty ⟨writeArgs 5 [], fun _ => 0, by decide⟩ {}

set_option maxRecDepth 20000 in
/-- The byte at the start is written as it should be. -/
theorem write_exact_iff_first : writeFirst.Exact oneFile ⟨2, LATEST⟩ 0 [104] := by
  have hto : writeFirst.To oneFile ⟨2, LATEST⟩ 0 [104] :=
    ⟨_, _, _, rfl, rfl, rfl, by decide, by decide, by decide⟩
  exact (write_exact_iff (PrfsStore.run_after (by decide)) hto).mpr fun _ => ⟨by decide, fun h => absurd h (by decide)⟩

set_option maxRecDepth 20000 in
/-- The byte at the last offset is answered OK and leaves the file without a size; no data past the end grows the file and
changes its seed. -/
theorem write_wraps : PrfsStore.Run .empty oneFile ∧
    (writeLast.To oneFile ⟨2, LATEST⟩ 0xFFFFFFFFFFFFFFFF [104] ∧ writeLast.Ok oneFile ∧
      ((writeLast.after oneFile).attrs ⟨2, LATEST⟩).size = 0) ∧
    (writeNothing.To oneFile ⟨2, LATEST⟩ 5 [] ∧ writeNothing.Ok oneFile ∧ (oneFile.attrs ⟨2, LATEST⟩).size = 0 ∧
      ((writeNothing.after oneFile).attrs ⟨2, LATEST⟩).size = 5 ∧
      ((writeNothing.after oneFile).attrs ⟨2, LATEST⟩).contentSeed ≠ (oneFile.attrs ⟨2, LATEST⟩).contentSeed) := by
  have hlast : writeLast.To oneFile ⟨2, LATEST⟩ 0xFFFFFFFFFFFFFFFF [104] :=
    ⟨_, _, _, rfl, rfl, rfl, by decide, by decide, by decide⟩
  have hnothing : writeNothing.To oneFile ⟨2, LATEST⟩ 5 [] :=
    ⟨_, _, _, rfl, rfl, rfl, by decide, by decide, by decide⟩
  exact ⟨PrfsStore.run_after (by decide), ⟨hlast, (hlast.granted trivial).1, by decide⟩,
    hnothing, (hnothing.granted trivial).1, by decide, by decide, by decide⟩

end WriteCall

end Prfs
