import Prfs.ContentBytes
import Prfs.ReplySizes
import Prfs.SealedCompounds
import Prfs.StoredCodecs
import Prfs.WireCalls

namespace Prfs

namespace Content

/-- The default provider, by the policy stored with the file system: the start of the output buffer that a read has filled. -/
def configProvider (gen : IRng) : Provider := fun cfg seed size off len =>
  match deserialize cfg with
  | .error _ => []
  | .ok c =>
    -- the fuel is enough for every read that ends
    match read gen (size.toNat + c.blockSize.toNat + 2) c seed size off (UInt64.ofNat len) with
    | none => []
    | some res => (res.into (List.replicate len 0)).take res.ret.toNat

variable {gen : IRng} {c : ContentConfig} {seed size off : UInt64} {cfg : Bytes} {len : Nat}

theorem RangeFits.returns {len : UInt64} (h : RangeFits c seed size off len) (hin : off.toNat < size.toNat) (hlen : 0 < len.toNat) :
    ∃ res, read gen (size.toNat + c.blockSize.toNat + 2) c seed size off len = some res := by
  obtain ⟨hrange, -, hgen⟩ := h
  obtain ⟨bs, stop, first, last, hbs, hstop, hfirst, hlast, hmul, hlt, hret, hread⟩ := read_span gen c seed hin hlen hrange
  have hdiv : (stop.toNat - 1) / blockBytes c ≤ stop.toNat - 1 := Nat.div_le_self _ _
  rw [← hstop, ← hlast] at hgen
  obtain ⟨cs, hcs⟩ : ∃ cs, blockLoop (fun b buf => genBlock gen (size.toNat + c.blockSize.toNat + 2) c seed b
      (alphabet c.entropy) buf) bs off stop last (size.toNat + c.blockSize.toNat + 1 + 1) first
      (List.replicate (blockBytes c) 0) = some cs := by
    refine blockLoop_terminates hlt (by omega) fun x hx hxl buf => genBlock_terminates ?_ (by omega) _ buf
    exact hgen.imp_right fun hh => hh x (by rwa [← hfirst, ← UInt64.le_iff_toNat_le]) (UInt64.le_iff_toNat_le.mp hxl)
  exact ⟨_, by rw [hread, hcs, Option.map_some]⟩

/-- The default provider gives the bytes of the positions that it is asked for, as far as the file goes. -/
theorem configProvider_eq (hc : deserialize cfg = .ok c) (hbs : c.blockSize.toNat ≤ 2 ^ 32 - 16) (hsize : size.toNat < 2 ^ 63)
    (hoff : off.toNat < size.toNat) (hpos : 0 < len) (hlen : len < 2 ^ 63) :
    configProvider gen cfg seed size off len = ((bytesAt gen c seed 0 size.toNat).drop off.toNat).take len := by
  have hn : (UInt64.ofNat len).toNat = len := UInt64.toNat_ofNat_of_lt' (show len < 2 ^ 64 by omega)
  have hsmall := blockBytes_lt c
  have hmul := Nat.div_mul_le_self (min (off.toNat + len) size.toNat - 1) (blockBytes c)
  have hfits : RangeFits c seed size off (UInt64.ofNat len) := by
    unfold RangeFits
    rw [hn]
    refine ⟨by omega, ?_, .inl hbs⟩
    rw [Nat.add_mul, Nat.one_mul]
    omega
  obtain ⟨res, hres⟩ := @RangeFits.returns gen c seed size off _ hfits hoff (by omega)
  have hret := ((hfits.readsWithin hoff (by omega)).2 _ res hres).2
  rw [hn] at hret
  unfold configProvider
  rw [hc]
  dsimp only
  rw [hres]
  dsimp only
  refine List.ext_getElem? fun j => ?_
  rw [List.getElem?_take, List.getElem?_take, List.getElem?_drop]
  have hbytes : ∀ p, p < size.toNat → (bytesAt gen c seed 0 size.toNat)[p]? = some (byteAt gen c seed p) := by
    intro p hp
    simp [bytesAt, List.getElem?_range' hp]
  have hend : ∀ p, size.toNat ≤ p → (bytesAt gen c seed 0 size.toNat)[p]? = none := by
    intro p hp
    rw [List.getElem?_eq_none]
    simpa [bytesAt] using hp
  by_cases hj : j < len
  · rw [if_pos hj]
    by_cases hin : off.toNat + j < size.toNat
    · rw [if_pos (by omega), hbytes _ hin, read_bytes hoff (by omega) hfits.1 hfits.2.1 hres _ (by omega),
        List.getElem?_replicate, if_pos hj]
      rfl
    · rw [if_neg (by omega), hend _ (by omega)]
  · rw [if_neg hj, if_neg (by omega)]

end Content

/-- A reader goes on from where it is until the end is reported; `read` answers its requests in turn. -/
def copyLoop {ε : Type} (read : Nat → UInt64 → Option (Except ε (Bytes × Bool))) : Nat → Nat → UInt64 → Option (Except ε Bytes)
  | 0, _, _ => none
  | fuel + 1, k, off =>
    (read k off).bind fun
      | .error e => some (.error e)
      | .ok (data, eof) =>
        if eof then some (.ok data)
        else (copyLoop read fuel (k + 1) (off + UInt64.ofNat data.length)).map fun out => out.map (data ++ ·)

/-- Where every request is answered with the bytes from its offset on, at least one while there are some, and with the end when
they are all there, the reader gets every byte in its place. -/
theorem copyLoop_eq {ε : Type} {read : Nat → UInt64 → Option (Except ε (Bytes × Bool))} {bs : Bytes} {n : Nat}
    (hbs : bs.length < 2 ^ 63)
    (hread : ∀ k off, off.toNat ≤ bs.length →
      read k off = some (.ok ((bs.drop off.toNat).take n, decide (bs.length ≤ off.toNat + n))))
    {fuel k : Nat} {off : UInt64} (hoff : off.toNat ≤ bs.length) (hfuel : bs.length < off.toNat + fuel * n) :
    copyLoop read fuel k off = some (.ok (bs.drop off.toNat)) := by
  induction fuel generalizing k off with
  | zero => omega
  | succ fuel ih =>
    rw [copyLoop, hread k off hoff, Option.bind_some]
    dsimp only
    split_ifs with heof
    · rw [decide_eq_true_eq] at heof
      rw [List.take_of_length_le]
      rw [List.length_drop]
      omega
    · rw [decide_eq_true_eq] at heof
      have hlen : ((bs.drop off.toNat).take n).length = n := by
        rw [List.length_take, List.length_drop]
        omega
      have hnext : (off + UInt64.ofNat n).toNat = off.toNat + n := by
        rw [UInt64.toNat_add, UInt64.toNat_ofNat_of_lt' (show n < 2 ^ 64 by omega)]
        exact Nat.mod_eq_of_lt (by omega)
      rw [hlen, ih (by omega) (by rw [hnext]; rw [Nat.add_mul, Nat.one_mul] at hfuel; omega), hnext, Option.map_some]
      show some (Except.ok ((bs.drop off.toNat).take n ++ bs.drop (off.toNat + n))) = _
      rw [← List.drop_drop, List.take_append_drop]

/-- The bytes of a file, as a host gives them at any offset. -/
def Host.Gives (h : Host) (fs : PrfsStore) (f : Node) (bs : Bytes) : Prop :=
  bs.length = (fs.attrs f).size.toNat ∧
    ∀ off len, len < 2 ^ 63 → h.read fs f off len = (bs.drop off.toNat).take len

theorem Host.gives_config {h : Host} {fs : PrfsStore} {f : Node} {gen : IRng} {c : ContentConfig}
    (hprov : h.provider = some (Content.configProvider gen)) (hc : Content.deserialize fs.contentConfig = .ok c)
    (hbs : c.blockSize.toNat ≤ 2 ^ 32 - 16) (hsize : (fs.attrs f).size.toNat < 2 ^ 63) :
    h.Gives fs f (Content.bytesAt gen c (fs.attrs f).contentSeed 0 (fs.attrs f).size.toNat) := by
  have hlength : (Content.bytesAt gen c (fs.attrs f).contentSeed 0 (fs.attrs f).size.toNat).length = (fs.attrs f).size.toNat := by
    simp [Content.bytesAt]
  refine ⟨hlength, fun off len hlen => ?_⟩
  unfold Host.read
  dsimp only
  rw [hprov]
  split_ifs with hnone
  · symm
    rcases hnone with hend | rfl
    · rw [UInt64.le_iff_toNat_le] at hend
      rw [List.drop_eq_nil_of_le (by omega), List.take_nil]
    · exact List.take_zero
  · rw [not_or, UInt64.not_le, UInt64.lt_iff_toNat_lt] at hnone
    exact Content.configProvider_eq hc hbs hsize hnone.1 (by omega) hlen

/-- The bytes of one reply to a client that asks for `cnt`. -/
def Host.share (cnt : UInt32) : Nat := (if 0x100000 < cnt then 0x100000 else cnt : UInt32).toNat

theorem Host.share_le (cnt : UInt32) : Host.share cnt ≤ 0x100000 := by
  unfold Host.share
  split_ifs with hcnt
  · exact le_refl _
  · rw [UInt32.not_lt, UInt32.le_iff_toNat_le] at hcnt
    exact hcnt

/-- One READ gives the bytes from its offset on, and says whether they end there. -/
theorem Host.Gives.part {h : Host} {fs : PrfsStore} {f : Node} {bs : Bytes} (hf : h.Gives fs f bs) (hbs : bs.length < 2 ^ 63)
    {off : UInt64} (hoff : off.toNat ≤ bs.length) (cnt : UInt32) :
    h.read fs f off (Host.share cnt) = (bs.drop off.toNat).take (Host.share cnt) ∧
      ((fs.attrs f).size ≤ off + UInt64.ofNat ((bs.drop off.toNat).take (Host.share cnt)).length ↔
        bs.length ≤ off.toNat + Host.share cnt) := by
  have hshare := Host.share_le cnt
  obtain ⟨hlen, hread⟩ := hf
  refine ⟨hread off _ (by omega), ?_⟩
  have htake : ((bs.drop off.toNat).take (Host.share cnt)).length = min (Host.share cnt) (bs.length - off.toNat) := by
    rw [List.length_take, List.length_drop]
  have hadd : (off + UInt64.ofNat (min (Host.share cnt) (bs.length - off.toNat))).toNat =
      off.toNat + min (Host.share cnt) (bs.length - off.toNat) := by
    rw [UInt64.toNat_add, UInt64.toNat_ofNat_of_lt' (show min (Host.share cnt) (bs.length - off.toNat) < 2 ^ 64 by omega)]
    exact Nat.mod_eq_of_lt (by omega)
  rw [htake, UInt64.le_iff_toNat_le, hadd, ← hlen]
  omega

namespace NfsV3

def readArgs (f : Node) (off : UInt64) (cnt : UInt32) : List Item := [.fh f.id f.snap, .u64 off, .u32 cnt]

/-- The data and the end flag in a result of READ, or its status where that is not OK. -/
def dataIn (result : Bytes) : Option (Except UInt32 (Bytes × Bool)) :=
  (XdrType.takeWord result).bind fun st =>
    if st.1 = 0 then
      (XdrType.takeWord st.2).bind fun follows =>
        (XdrType.takeWord (follows.2.drop (if follows.1 = 0 then 0 else 84))).bind fun count =>
          (XdrType.takeWord count.2).bind fun eof =>
            (XdrType.bytes.decode eof.2).map fun data => .ok (data.1.val, decide (eof.1 ≠ 0))
    else some (.error st.1)

/-- A client copies a file with READs of `cnt` bytes; `serve` is the connection as each of them meets it. -/
def clientCopy (serve : Nat → Bytes → Option Bytes) (xid : UInt32) (f : Node) (cnt : UInt32) (fuel : Nat) :
    Option (Except UInt32 Bytes) :=
  copyLoop (fun k off => ((serve k (callBytes xid PROG_NFS NFS_V3 6 (readArgs f off cnt))).bind (resultIn xid)).bind dataIn) fuel 0 0

theorem pre_encodeFattr {h : Host} {fs : PrfsStore} {w w' : Writer} (hw : w.Pre w') (n : Node) : w.Pre (encodeFattr h fs w' n) := by
  have h1 := ((((hw.u32 (ftype3 (fs.attrs n).type)).u32 (fs.attrs n).mode).u32 (fs.attrs n).nlink).u32 (fs.attrs n).uid).u32
    (fs.attrs n).gid
  unfold encodeFattr
  dsimp only
  exact ((((((((((((h1.u64 _).u64 _).u32 _).u32 _).u64 _).u64 _).u32 _).u32 _).u32 _).u32 _).u32 _).u32 _)

/-- Attributes that follow a word take 84 bytes behind it. -/
theorem encodePostOp_bytes (h : Host) (fs : PrfsStore) (w : Writer) (n : Node) :
    ∃ attrs : Bytes, attrs.length = 84 ∧ (encodePostOp h fs w (some n)).v = w.v ++ (word 1 ++ attrs) := by
  obtain ⟨attrs, hattrs⟩ : (w.u32 1).Pre (encodePostOp h fs w (some n)) := by
    rw [encodePostOp]
    exact pre_encodeFattr (Writer.Pre.refl _) _
  have hlen := congrArg List.length hattrs
  have hword : (word 1).length = 4 := rfl
  rw [encodePostOp_length, List.length_append, Writer.u32, Writer.append, List.length_append, hword] at hlen
  refine ⟨attrs, by omega, ?_⟩
  rw [← hattrs, Writer.u32, Writer.append, List.append_assoc]

theorem dataIn_read (h : Host) (fs : PrfsStore) (f : Node) {data : Bytes} (hdata : data.length < 2 ^ 32) (count : UInt32) (p : Prop)
    [Decidable p] :
    dataIn ((((encodePostOp h fs (({} : Writer).u32 Nfsstat3.ok.code) (some f)).u32 count).u32 (if p then 1 else 0)).bytes data).v =
      some (.ok (data, decide p)) := by
  obtain ⟨attrs, hattrs, hv⟩ := encodePostOp_bytes h fs (({} : Writer).u32 Nfsstat3.ok.code) f
  have haligned : (((encodePostOp h fs (({} : Writer).u32 Nfsstat3.ok.code) (some f)).u32 count).u32 (if p then 1 else 0)).v.length % 4 =
      0 := by
    have hstart : (({} : Writer).u32 Nfsstat3.ok.code).v.length = 4 := rfl
    rw [Writer.u32_length, Writer.u32_length, encodePostOp_length, hstart]
  have hbytes : ((((encodePostOp h fs (({} : Writer).u32 Nfsstat3.ok.code) (some f)).u32 count).u32 (if p then 1 else 0)).bytes data).v =
      word 0 ++ (word 1 ++ (attrs ++ (word count ++ (word (if p then 1 else 0) ++
        (XdrType.bytes.encode ⟨data, hdata⟩ ++ []))))) := by
    have hstr := congrArg Writer.v (Writer.str_eq haligned data)
    rw [Writer.str] at hstr
    rw [hstr, Writer.append, Writer.u32, Writer.u32, Writer.append, Writer.append, hv]
    simp only [List.append_assoc, List.append_nil]
    rfl
  rw [hbytes, dataIn, XdrType.takeWord_word, Option.bind_some]
  dsimp only
  rw [if_pos rfl, XdrType.takeWord_word, Option.bind_some]
  dsimp only
  rw [if_neg (by decide), List.drop_left' hattrs, XdrType.takeWord_word, Option.bind_some]
  dsimp only
  rw [XdrType.takeWord_word, Option.bind_some]
  dsimp only
  rw [XdrType.decode_encode, Option.map_some]
  by_cases hp : p
  · simp [hp]
  · simp [hp]

theorem dispatch_read {h : Host} {v : NfsV3} {m : Msg} {r : Reader} {cred : Cred} :
    dispatch h v m r PROG_NFS NFS_V3 6 cred = nfsRead h v m r {} := by
  have hrun : run h v m r PROG_NFS NFS_V3 6 cred = nfsRead h v m r {} := rfl
  have hstill : ¬ (PROG_NFS = PROG_NFS ∧ (Proc3.ofCode 6).any Proc3.isMutating = true ∧ h.advance = true) :=
    fun hh => Bool.false_ne_true hh.2.1
  unfold dispatch
  dsimp only
  rw [if_neg hstill, hrun]

/-- One READ of a file that the host gives. -/
theorem read_served {h : Host} {beyond : Nat → UInt8} {v : NfsV3} {f : Node} {bs : Bytes}
    (hf : v.fs.nodeById f.id f.snap = some f) (hreg : (v.fs.attrs f).type = .REG) (hgives : h.Gives v.fs f bs)
    (hbs : bs.length < 2 ^ 63) {off : UInt64} (hoff : off.toNat ≤ bs.length) (xid cnt : UInt32) :
    (((connection h beyond v (callBytes xid PROG_NFS NFS_V3 6 (readArgs f off cnt))).map Prod.fst).bind (resultIn xid)).bind dataIn =
      some (.ok ((bs.drop off.toNat).take (Host.share cnt), decide (bs.length ≤ off.toNat + Host.share cnt))) := by
  obtain ⟨hread, heof⟩ := hgives.part hbs hoff cnt
  have hlen : (callBytes xid PROG_NFS NFS_V3 6 (readArgs f off cnt)).length ≤ 0x100000 := by
    have hword : (Item.u32 cnt).encode.length = 4 := rfl
    have hdouble : (Item.u64 off).encode.length = 8 := be_length off
    rw [callBytes_length, readArgs, List.flatMap_cons, List.flatMap_cons, List.flatMap_cons, List.flatMap_nil, List.length_append,
      List.length_append, List.length_append, Item.fh_length, hword, hdouble]
    decide
  have hshare := Host.share_le cnt
  have hdata : ((bs.drop off.toNat).take (Host.share cnt)).length < 2 ^ 32 := by
    rw [List.length_take]
    omega
  have hbuf : h.read v.fs f off (if MAX_READ < cnt then MAX_READ else cnt).toNat = (bs.drop off.toNat).take (Host.share cnt) := hread
  generalize (bs.drop off.toNat).take (Host.share cnt) = data at *
  have hserve := @connection_call h beyond v v xid PROG_NFS NFS_V3 6 (readArgs f off cnt)
    ((((encodePostOp h v.fs (({} : Writer).u32 Nfsstat3.ok.code) (some f)).u32 (UInt32.ofNat data.length)).u32
      (if bs.length ≤ off.toNat + Host.share cnt then 1 else 0)).bytes data) hlen
    fun m r hr hok => by
      rw [readArgs, List.flatMap_cons, List.flatMap_cons, List.flatMap_cons, List.flatMap_nil] at hr
      obtain ⟨r1, hfh, h1, hok1, -⟩ := hr.fh3 hok
      obtain ⟨hpos, h2, hok2⟩ := h1.u64
      obtain ⟨hcnt, -, hok3⟩ := h2.u32
      rw [dispatch_read]
      unfold nfsRead
      rw [hfh]
      dsimp only
      rw [hpos, hcnt, hok3, hok2, hok1, hf]
      dsimp only
      rw [hreg, if_neg (by decide), if_neg (by decide), if_neg (by decide), hbuf, if_congr heof rfl rfl]
      rfl
  rw [hserve, Option.map_some, Option.bind_some, resultIn_frame, Option.bind_some]
  exact dataIn_read h v.fs f hdata _ _

end NfsV3

namespace NfsV4

/-- A PUTFH and a READ with the stateid of zeros. -/
def readOps (f : Node) (off : UInt64) (cnt : UInt32) : List Item :=
  [.u32 22, .fh f.id f.snap, .u32 25, .u32 0, .u64 0, .u32 0, .u64 off, .u32 cnt]

/-- The data and the end flag in the result of a PUTFH and a READ, or the status where one of them fails. -/
def dataIn (result : Bytes) : Option (Except UInt32 (Bytes × Bool)) :=
  (XdrType.takeWord result).bind fun st =>
    if st.1 = 0 then
      -- over the tag, the count, and the numbers and statuses of both results
      (XdrType.takeWord (st.2.drop 24)).bind fun eof =>
        (XdrType.bytes.decode eof.2).map fun data => .ok (data.1.val, decide (eof.1 ≠ 0))
    else some (.error st.1)

/-- A client copies a file with READs of `cnt` bytes. -/
def clientCopy (serve : Nat → Bytes → Option Bytes) (xid : UInt32) (f : Node) (cnt : UInt32) (fuel : Nat) :
    Option (Except UInt32 Bytes) :=
  copyLoop (fun k off => ((serve k (compoundBytes xid 2 (readOps f off cnt))).bind (resultIn xid)).bind dataIn) fuel 0 0

namespace Call4

variable {h : Host} {hash : Bytes → UInt64} {m : Msg} {c : Call4} {f : Node} {bs : Bytes}

theorem execOp_putfh (hr : c.r.Ahead m (word 22 ++ (Reader.handle f.id f.snap ++ bs))) (hok : c.r.ok = true) :
    ∃ r, r.Ahead m bs ∧ r.ok = true ∧ ∀ p, (execOp h hash p m c).st = .ok ∧
      (execOp h hash p m c).after = { c with cfh := some f, r := r, w := (c.w.u32 22).u32 0 } := by
  obtain ⟨hop, h1, hok1⟩ := hr.u32
  obtain ⟨r, hfh, h2, hok2, -⟩ := h1.fh4 (hok1.trans hok)
  have hcode : Op4.ofCode 22 = some .putfh := by decide
  refine ⟨r, h2, hok2, fun p => ?_⟩
  unfold execOp doOp
  dsimp only
  rw [hop, hcode]
  dsimp only
  unfold runOp opPutfh
  dsimp only
  rw [hfh]
  exact ⟨rfl, rfl⟩

theorem execOp_read {off : UInt64} {cnt : UInt32} {data : Bytes} (hc : c.cfh = some f) (hf : c.fs.nodeById f.id f.snap = some f)
    (hreg : (c.fs.attrs f).type = .REG)
    (hr : c.r.Ahead m (word 25 ++ (word 0 ++ (be 0 ++ (word 0 ++ (be off ++ (word cnt ++ bs))))))) (hok : c.r.ok = true)
    (hbuf : h.read c.fs f off (Host.share cnt) = data) :
    ∃ r, r.ok = true ∧ ∀ p, (execOp h hash p m c).st = .ok ∧
      (execOp h hash p m c).after = { c with
        r := r
        w := (((c.w.u32 25).u32 Nfsstat4.ok.code).u32 (if (c.fs.attrs f).size ≤ off + UInt64.ofNat data.length then 1 else 0)).bytes data } := by
  obtain ⟨hop, h1, hok1⟩ := hr.u32
  obtain ⟨hseq, h2, hok2⟩ := h1.u32
  obtain ⟨hid, h3, hok3⟩ := h2.u64
  obtain ⟨htag, h4, hok4⟩ := h3.u32
  obtain ⟨hpos, h5, hok5⟩ := h4.u64
  obtain ⟨hcnt, -, hok6⟩ := h5.u32
  have hcode : Op4.ofCode 25 = some .read := by decide
  have hspecial : NfsV4.refuses c.v ⟨0, 0, 0⟩ f.id ACCESS_READ = none := rfl
  refine ⟨_, hok6.trans (hok5.trans (hok4.trans (hok3.trans (hok2.trans (hok1.trans hok))))), fun p => ?_⟩
  unfold execOp doOp
  dsimp only
  rw [hop, hcode]
  dsimp only
  unfold runOp opRead readStateid cur
  dsimp only
  rw [hseq, hid, htag, hpos, hcnt, hc, Option.bind_some, hf]
  dsimp only
  rw [hreg, if_neg (by decide), hspecial]
  dsimp only
  have hlen : h.read c.fs f off (if MAX_IO < cnt then MAX_IO else cnt).toNat = data := hbuf
  rw [hlen]
  unfold exitWith
  refine ⟨rfl, ?_⟩
  dsimp only

end Call4

/-- What a PUTFH and a READ of a file write. -/
def readResults (data : Bytes) (flag : UInt32) : Writer :=
  ((((((({} : Writer).u32 22).u32 0).u32 25).u32 Nfsstat4.ok.code).u32 flag).bytes data)

theorem dataIn_read {data : Bytes} (hdata : data.length < 2 ^ 32) (p : Prop) [Decidable p] :
    dataIn (compoundResult .ok 2 (readResults data (if p then 1 else 0)).v) = some (.ok (data, decide p)) := by
  have haligned : ((((({} : Writer).u32 22).u32 0).u32 25).u32 Nfsstat4.ok.code |>.u32 (if p then 1 else 0)).v.length % 4 = 0 := by
    simp only [Writer.u32_length]
    rfl
  have hv : compoundResult .ok 2 (readResults data (if p then 1 else 0)).v =
      word 0 ++ ((word 0 ++ (word 2 ++ (word 22 ++ (word 0 ++ (word 25 ++ word 0))))) ++
        (word (if p then 1 else 0) ++ (XdrType.bytes.encode ⟨data, hdata⟩ ++ []))) := by
    have hstr := congrArg Writer.v (Writer.str_eq haligned data)
    rw [Writer.str] at hstr
    rw [compoundResult, readResults, hstr]
    simp only [Writer.append, Writer.u32, List.append_assoc, List.append_nil, List.nil_append]
    rfl
  have hlen : (word 0 ++ (word 2 ++ (word 22 ++ (word 0 ++ (word 25 ++ word 0))))).length = 24 := rfl
  rw [hv, dataIn, XdrType.takeWord_word, Option.bind_some]
  dsimp only
  rw [if_pos rfl, List.drop_left' hlen, XdrType.takeWord_word, Option.bind_some]
  dsimp only
  rw [XdrType.decode_encode, Option.map_some]
  by_cases hp : p
  · simp [hp]
  · simp [hp]

/-- One READ of a file that the host gives. -/
theorem read_served {h : Host} {hash : Bytes → UInt64} {pos : Nat → Nat → WalkOrder} {beyond : Nat → UInt8} {s : Server4} {k : Nat}
    {f : Node} {bs : Bytes} (hf : s.fs.nodeById f.id f.snap = some f) (hreg : (s.fs.attrs f).type = .REG)
    (hgives : h.Gives s.fs f bs) (hbs : bs.length < 2 ^ 63) {off : UInt64} (hoff : off.toNat ≤ bs.length) (xid cnt : UInt32) :
    (((connection h hash pos beyond (s, k) (compoundBytes xid 2 (readOps f off cnt))).map Prod.fst).bind (resultIn xid)).bind dataIn =
      some (.ok ((bs.drop off.toNat).take (Host.share cnt), decide (bs.length ≤ off.toNat + Host.share cnt))) := by
  obtain ⟨hread, heof⟩ := hgives.part hbs hoff cnt
  have hshare := Host.share_le cnt
  have hdata : ((bs.drop off.toNat).take (Host.share cnt)).length < 2 ^ 32 := by
    rw [List.length_take]
    omega
  have hlen : (compoundBytes xid 2 (readOps f off cnt)).length ≤ 0x200000 := by
    have hdouble := be_length off
    have hfh := Item.fh_length f.id f.snap
    rw [compoundBytes, callBytes_length, readOps]
    simp only [List.cons_append, List.nil_append, List.flatMap_cons, List.flatMap_nil, List.length_append, hfh]
    rw [show (Item.u64 off).encode.length = 8 from hdouble, show (Item.u32 cnt).encode.length = 4 from rfl]
    decide
  generalize (bs.drop off.toNat).take (Host.share cnt) = data at *
  obtain ⟨c, hw, hserve⟩ := @connection_compound h hash pos beyond s k xid 2 (readOps f off cnt) .ok 2
    (fun c => c.w = readResults data (if bs.length ≤ off.toNat + Host.share cnt then 1 else 0)) hlen (by decide) fun m r hr hok => by
      have hops : (readOps f off cnt).flatMap Item.encode = word 22 ++ (Reader.handle f.id f.snap ++ (word 25 ++ (word 0 ++ (be 0 ++
          (word 0 ++ (be off ++ (word cnt ++ []))))))) := rfl
      rw [hops] at hr
      obtain ⟨r1, h1, hok1, hput⟩ := @Call4.execOp_putfh h hash m { v := s.v, fs := s.fs, ckName := s.ckName, r } f _ hr hok
      obtain ⟨hst, hafter⟩ := hput (pos k 0)
      obtain ⟨r2, hok2, hexec⟩ := @Call4.execOp_read h hash m
        { v := s.v, fs := s.fs, ckName := s.ckName, cfh := some f, r := r1, w := (({} : Writer).u32 22).u32 0 } f [] off cnt data
        rfl hf hreg h1 hok1 hread
      obtain ⟨hst2, hafter2⟩ := hexec (pos k 1)
      refine ⟨(Call4.execOp h hash (pos k 1) m
        { v := s.v, fs := s.fs, ckName := s.ckName, cfh := some f, r := r1, w := (({} : Writer).u32 22).u32 0 }).after, ?_, ?_, ?_⟩
      · rw [hafter2]
        exact hok2
      · rw [hafter2]
        dsimp only
        rw [if_congr heof rfl rfl]
        rfl
      · rw [show (2 : UInt32).toNat = 0 + 1 + 1 from rfl, Call4.opsLoop_succ hok]
        dsimp only
        rw [if_pos hst, hafter, @Call4.opsLoop_succ h hash _ m 0 _ _ _ hok1]
        dsimp only
        rw [if_pos hst2]
        rfl
  rw [hserve, Option.map_some, Option.bind_some, resultIn_frame, Option.bind_some, hw]
  exact dataIn_read hdata _

end NfsV4

namespace Server

variable {h : Host} {hash : Bytes → UInt64} {pos : Nat → Nat → WalkOrder} {beyond : Nat → UInt8} {s : Server} {f : Node}

/-- A client that reads to the end has the bytes that the host gives at each of its READs. -/
theorem copies_given {states : Nat → Server} {bs : Bytes} (hnode : ∀ k, (states k).fs.nodeById f.id f.snap = some f)
    (htype : ∀ k, ((states k).fs.attrs f).type = .REG) (hgives : ∀ k, h.Gives (states k).fs f bs) (hbs : bs.length < 2 ^ 63)
    (xid : UInt32) {cnt : UInt32} {fuel : Nat} (hfuel : bs.length < fuel * Host.share cnt) :
    NfsV3.clientCopy (fun k call => (NfsV3.connection h beyond ⟨(states k).fs, (states k).names⟩ call).map Prod.fst) xid f cnt fuel =
      some (.ok bs) ∧
    NfsV4.clientCopy (fun k call => (NfsV4.connection h hash pos beyond ((states k).server4, k) call).map Prod.fst) xid f cnt fuel =
      some (.ok bs) := by
  have hstart : ∀ {ε : Type} {read : Nat → UInt64 → Option (Except ε (Bytes × Bool))}, (∀ k off, off.toNat ≤ bs.length →
      read k off = some (.ok ((bs.drop off.toNat).take (Host.share cnt), decide (bs.length ≤ off.toNat + Host.share cnt)))) →
      copyLoop read fuel 0 0 = some (.ok bs) := by
    intro ε read hread
    have hloop := @copyLoop_eq ε read bs (Host.share cnt) (by omega) hread fuel 0 0 (Nat.zero_le _) (by
      show _ < 0 + _
      omega)
    exact hloop
  constructor
  · unfold NfsV3.clientCopy
    refine hstart fun k off hoff => ?_
    exact @NfsV3.read_served h beyond ⟨(states k).fs, (states k).names⟩ f bs (hnode k) (htype k) (hgives k) hbs off hoff xid cnt
  · unfold NfsV4.clientCopy
    refine hstart fun k off hoff => ?_
    exact @NfsV4.read_served h hash pos beyond (states k).server4 k f bs (hnode k) (htype k) (hgives k) hbs off hoff xid cnt

/-- A client that copies a file of a sealed view gets every byte that the policy generates at its place, however much it asks for
at a time, in either version and whatever the connections do between its READs. -/
theorem copies_exact (hs : PrfsStore.Run .empty s.fs) (hf : s.fs.SealedNode f) (hn : s.fs.nodeById f.id f.snap = some f)
    (hreg : (s.fs.attrs f).type = .REG) (hsize : (s.fs.attrs f).size.toNat < 2 ^ 63) {gen : IRng} {c : ContentConfig}
    (hprov : h.provider = some (Content.configProvider gen)) (hc : Content.deserialize s.fs.contentConfig = .ok c)
    (hbs : c.blockSize.toNat ≤ 2 ^ 32 - 16) {states : Nat → Server} (ht : ∀ k, Traffic h hash s (states k))
    (hcfg : ∀ k, (states k).fs.contentConfig = s.fs.contentConfig) (xid : UInt32) {cnt : UInt32} {fuel : Nat}
    (hfuel : (s.fs.attrs f).size.toNat < fuel * Host.share cnt) :
    let bytes := Content.bytesAt gen c (s.fs.attrs f).contentSeed 0 (s.fs.attrs f).size.toNat
    NfsV3.clientCopy (fun k call => (NfsV3.connection h beyond ⟨(states k).fs, (states k).names⟩ call).map Prod.fst) xid f cnt fuel =
      some (.ok bytes) ∧
    NfsV4.clientCopy (fun k call => (NfsV4.connection h hash pos beyond ((states k).server4, k) call).map Prod.fst) xid f cnt fuel =
      some (.ok bytes) := by
  have hlen : (Content.bytesAt gen c (s.fs.attrs f).contentSeed 0 (s.fs.attrs f).size.toNat).length = (s.fs.attrs f).size.toNat := by
    simp [Content.bytesAt]
  have hsame := fun k => hs.sound.sameSealed (ht k).fs_run
  have hgives : ∀ k, h.Gives (states k).fs f (Content.bytesAt gen c (s.fs.attrs f).contentSeed 0 (s.fs.attrs f).size.toNat) := by
    intro k
    rw [← (hsame k).attrs hf]
    refine Host.gives_config hprov ?_ hbs ?_
    · rw [hcfg]
      exact hc
    · rw [(hsame k).attrs hf]
      exact hsize
  have hnode : ∀ k, (states k).fs.nodeById f.id f.snap = some f := fun k => ((hsame k).node hf).trans hn
  have htype : ∀ k, ((states k).fs.attrs f).type = .REG := by
    intro k
    rw [(hsame k).attrs hf]
    exact hreg
  have hsmall : (Content.bytesAt gen c (s.fs.attrs f).contentSeed 0 (s.fs.attrs f).size.toNat).length < 2 ^ 63 := by
    rw [hlen]
    exact hsize
  have hroom : (Content.bytesAt gen c (s.fs.attrs f).contentSeed 0 (s.fs.attrs f).size.toNat).length < fuel * Host.share cnt := by
    rw [hlen]
    exact hfuel
  exact copies_given hnode htype hgives hsmall xid hroom

/-- A file of five bytes with the entry "a", and a snapshot of it. -/
def fiveA : PrfsStore :=
  PrfsStore.empty.after [.mkfile [], .link ⟨1, LATEST⟩ [97] ⟨2, LATEST⟩, .setAttr ⟨2, LATEST⟩ (.size 5), .snapshot []]

/-- A generator that adds the counter and the key. -/
def addGen : IRng := fun w k => ⟨w.w0 + k.1, w.w1 + k.2, w.w2, w.w3⟩

set_option maxRecDepth 20000 in
/-- Two bytes at a time, while the live file grows and loses its entry after the first READ. -/
theorem copies_exact_changed :
    let h : Host := { provider := some (Content.configProvider addGen) }
    let s : Server := { fs := fiveA }
    let t := s.after h (fun _ => 0) [.direct (.setAttr ⟨2, LATEST⟩ (.size 9)), .direct (.unlink ⟨1, LATEST⟩ [97])]
    let states : Nat → Server := fun k => if k = 0 then s else t
    NfsV3.clientCopy (fun k call => (NfsV3.connection h (fun _ => 0) ⟨(states k).fs, (states k).names⟩ call).map Prod.fst) 7 ⟨2, 1⟩ 2 3 =
      some (.ok (Content.bytesAt addGen {} 2 0 5)) := by
  intro h s t states
  have hs : PrfsStore.Run .empty s.fs := PrfsStore.run_after (by decide)
  have hst : Traffic h (fun _ => 0) s t := traffic_after (by decide)
  have ht : ∀ k, Traffic h (fun _ => 0) s (states k) := by
    intro k
    show Traffic h _ s (if k = 0 then s else t)
    split_ifs
    · exact .refl
    · exact hst
  have hcfg : ∀ k, (states k).fs.contentConfig = s.fs.contentConfig := by
    intro k
    show (if k = 0 then s else t).fs.contentConfig = _
    split_ifs
    · rfl
    · decide
  have hseed : (s.fs.attrs ⟨2, 1⟩).contentSeed = 2 := by decide
  have hsize : (s.fs.attrs ⟨2, 1⟩).size.toNat = 5 := by decide
  have hcopy := @copies_exact h (fun _ => 0) (fun _ _ _ => 0) (fun _ => 0) s ⟨2, 1⟩ hs (by decide) (by decide) (by decide)
    (by decide) addGen {} rfl rfl (by decide) states ht hcfg 7 2 3 (by decide)
  rw [hseed, hsize] at hcopy
  exact hcopy.1

end Server

end Prfs
