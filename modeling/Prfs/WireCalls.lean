import Prfs.Sessions
import Prfs.XdrItems

namespace Prfs

/-- The words of a call in front of its arguments, without a credential. -/
def callWords (xid prog vers proc : UInt32) : List UInt32 := [xid, RPC_CALL, 2, prog, vers, proc, 0, 0, 0, 0]

/-- A call as a client puts it together. -/
def callBytes (xid prog vers proc : UInt32) (args : List Item) : Bytes :=
  (callWords xid prog vers proc).flatMap word ++ args.flatMap Item.encode

theorem callBytes_length (xid prog vers proc : UInt32) (args : List Item) :
    (callBytes xid prog vers proc args).length = 40 + (args.flatMap Item.encode).length := by
  rw [callBytes, List.length_append, XdrType.flatMap_word_length]
  rfl

theorem Item.str_length_le (s : Bytes) : (Item.str s).encode.length ≤ s.length + 7 := by
  have hword : (word (UInt32.ofNat s.length)).length = 4 := rfl
  rw [Item.encode, List.length_append, List.length_append, XdrType.padding, List.length_replicate, hword]
  omega

theorem Item.fh_length (id snap : UInt64) : (Item.fh id snap).encode.length = 20 := by
  have hword : (word 16).length = 4 := rfl
  rw [Item.encode, Reader.handle, List.length_append, List.length_append, be_length, be_length, hword]

/-- The words in front of the result of a call that is accepted. -/
def replyWords (xid : UInt32) : List UInt32 := [xid, RPC_REPLY, MSG_ACCEPTED, 0, 0, AcceptStat.success.code]

/-- The record that answers a call with a result. -/
def resultFrame (xid : UInt32) (result : Bytes) : Bytes := marked ((replyWords xid).flatMap word ++ result)

/-- The result of a call, from the record that answers it. -/
def resultIn (xid : UInt32) (frame : Bytes) : Option Bytes :=
  if (frame.drop 4).take 24 = (replyWords xid).flatMap word then some (frame.drop 28) else none

theorem resultIn_frame (xid : UInt32) (result : Bytes) : resultIn xid (resultFrame xid result) = some result := by
  have hmark : ∀ rep, (marked rep).drop 4 = rep := fun _ => rfl
  have hlen : ((replyWords xid).flatMap word).length = 24 := rfl
  have hdrop : (resultFrame xid result).drop 28 = result := by
    rw [show 28 = 4 + 24 from rfl, ← List.drop_drop, resultFrame, hmark]
    exact List.drop_left' hlen
  rw [resultIn, hdrop, if_pos]
  rw [resultFrame, hmark]
  exact List.take_left' hlen

/-- The handle at the front of some bytes. -/
def takeHandle (bs : Bytes) : Option (Node × Bytes) :=
  (XdrType.takeWord bs).bind fun x =>
    if x.1 = 16 ∧ 16 ≤ x.2.length then some (⟨rdbe x.2, rdbe (x.2.drop 8)⟩, x.2.drop 16) else none

theorem takeHandle_handle (id snap : UInt64) (bs : Bytes) : takeHandle (Reader.handle id snap ++ bs) = some (⟨id, snap⟩, bs) := by
  have hid := be_length id
  have hsnap := be_length snap
  have hdrop : (be id ++ (be snap ++ bs)).drop 8 = be snap ++ bs := List.drop_left' hid
  have hrest : (be id ++ (be snap ++ bs)).drop 16 = bs := by
    rw [show 16 = 8 + 8 from rfl, ← List.drop_drop, hdrop]
    exact List.drop_left' hsnap
  rw [takeHandle, Reader.handle, List.append_assoc, List.append_assoc, XdrType.takeWord_word, Option.bind_some]
  dsimp only
  rw [hdrop, hrest, rdbe_be_append, rdbe_be_append, if_pos]
  refine ⟨rfl, ?_⟩
  simp only [List.length_append]
  omega

namespace Reader

variable {m : Msg} {r : Reader} {bs : Bytes}

theorem Ahead.of_buf (h : m.buf = bs) : Ahead m {} bs := ⟨Nat.zero_le _, by rw [h]; exact List.prefix_refl _⟩

theorem Ahead.string {s : Bytes} (hs : s.length ≤ 2 ^ 32 - 4) (h : r.Ahead m ((Item.str s).encode ++ bs)) (hok : r.ok = true) :
    ∃ r', r.str m = (s, r') ∧ r'.Ahead m bs ∧ r'.ok = true := by
  obtain ⟨r', hread, hok', hpos⟩ := h.str hs hok
  exact ⟨r', hread, h.advance _ hpos, hok'⟩

/-- An empty opaque is gone over with its length word. -/
theorem Ahead.skipOpaque (h : r.Ahead m (word 0 ++ bs)) :
    (r.skipOpaque m).Ahead m bs ∧ (r.skipOpaque m).ok = r.ok := by
  obtain ⟨hlen, h1, hok⟩ := h.u32
  have hstay : (r.u32 m).2.pos + padded 0 = (r.u32 m).2.pos := by
    rw [show padded 0 = 0 by decide, UInt64.add_zero]
  have hle : ¬ (r.u32 m).2.pos > m.n := by
    rw [gt_iff_lt, not_lt, UInt64.le_iff_toNat_le, m.n_toNat]
    exact h1.pos
  unfold Reader.skipOpaque Reader.skip
  dsimp only
  rw [hlen, hstay, if_neg hle]
  exact ⟨h1, hok⟩

theorem Ahead.skipAuth (h : r.Ahead m (word 0 ++ (word 0 ++ bs))) :
    (r.skipAuth m).Ahead m bs ∧ (r.skipAuth m).ok = r.ok := by
  obtain ⟨-, h1, hok⟩ := h.u32
  obtain ⟨h2, hok2⟩ := h1.skipOpaque
  exact ⟨h2, hok2.trans hok⟩

theorem Ahead.readCred (h : r.Ahead m (word 0 ++ (word 0 ++ bs))) (hr : r.ok = true) :
    ∃ r', r.readCred m = ({}, r') ∧ r'.Ahead m bs ∧ r'.ok = true := by
  obtain ⟨hflavor, h1, hok1⟩ := h.u32
  obtain ⟨hlen, h2, hok2⟩ := h1.u32
  have hstay : ((r.u32 m).2.u32 m).2.pos + padded 0 = ((r.u32 m).2.u32 m).2.pos := by
    rw [show padded 0 = 0 by decide, UInt64.add_zero]
  have hle : ¬ ((r.u32 m).2.u32 m).2.pos > m.n := by
    rw [gt_iff_lt, not_lt, UInt64.le_iff_toNat_le, m.n_toNat]
    exact h2.pos
  have hok : ((r.u32 m).2.u32 m).2.ok = true := hok2.trans (hok1.trans hr)
  unfold Reader.readCred
  dsimp only
  rw [hflavor, hlen, hstay, hok, if_neg (by simpa using hle), if_neg (by decide)]
  exact ⟨_, rfl, ⟨h2.pos, h2.next⟩, rfl⟩

end Reader

namespace NfsV3

theorem readHeader_call {m : Msg} {xid prog vers proc : UInt32} {args : List Item}
    (hm : m.buf = callBytes xid prog vers proc args) :
    ∃ r, readHeader m {} = some ⟨xid, prog, vers, proc, {}, r⟩ ∧ r.Ahead m (args.flatMap Item.encode) ∧ r.ok = true := by
  have h := Reader.Ahead.of_buf hm
  simp only [callBytes, callWords, List.flatMap_cons, List.flatMap_nil, List.append_assoc, List.nil_append] at h
  obtain ⟨e1, h1, k1⟩ := h.u32
  obtain ⟨e2, h2, k2⟩ := h1.u32
  obtain ⟨-, h3, k3⟩ := h2.u32
  obtain ⟨e4, h4, k4⟩ := h3.u32
  obtain ⟨e5, h5, k5⟩ := h4.u32
  obtain ⟨e6, h6, k6⟩ := h5.u32
  obtain ⟨r, hcred, h7, k7⟩ := h6.readCred (k6.trans (k5.trans (k4.trans (k3.trans (k2.trans k1)))))
  obtain ⟨h8, k8⟩ := h7.skipAuth
  refine ⟨r.skipAuth m, ?_, h8, k8.trans k7⟩
  unfold readHeader
  dsimp only
  rw [e1, e2, if_neg (fun hne => hne rfl), e4, e5, e6, hcred]

/-- What a call is answered with on a connection, from what its arguments are answered with. -/
theorem connection_call {h : Host} {beyond : Nat → UInt8} {v v' : NfsV3} {xid prog vers proc : UInt32} {args : List Item}
    {w : Writer} (hlen : (callBytes xid prog vers proc args).length ≤ 0x100000)
    (hrun : ∀ m r, r.Ahead m (args.flatMap Item.encode) → r.ok = true →
      dispatch h v m r prog vers proc {} = (.success, w, v')) :
    connection h beyond v (callBytes xid prog vers proc args) = some (resultFrame xid w.v, v') := by
  have hb : (callBytes xid prog vers proc args).length < 2 ^ 63 := by omega
  have hlo : 40 ≤ (callBytes xid prog vers proc args).length := by
    rw [callBytes_length]
    exact Nat.le_add_right _ _
  obtain ⟨r, hhead, hr, hok⟩ := readHeader_call (m := ⟨_, beyond, hb⟩) rfl
  unfold connection
  rw [dif_pos hb]
  unfold session
  rw [if_neg (by dsimp only; omega), hhead, Option.map_some]
  unfold reply
  dsimp only
  rw [hrun _ r hr hok, if_neg (by exact fun hne => AcceptStat.noConfusion hne)]
  rfl

end NfsV3

namespace NfsV4

/-- A COMPOUND of `n` operations, without a tag. -/
def compoundBytes (xid n : UInt32) (ops : List Item) : Bytes :=
  callBytes xid PROG_NFS NFS_V4 1 ([.str [], .u32 0, .u32 n] ++ ops)

/-- The result of a COMPOUND: its status, its empty tag, how many operations it executed, and their results. -/
def compoundResult (last : Nfsstat4) (done : Nat) (results : Bytes) : Bytes :=
  word last.code ++ (word 0 ++ (word (UInt32.ofNat done) ++ results))

theorem compoundResult_eq (last : Nfsstat4) (done : Nat) (results : Bytes) :
    ((((({} : Writer).u32 last.code).str []).u32 (UInt32.ofNat done)).append results).v = compoundResult last done results := by
  have haligned : (({} : Writer).u32 last.code).v.length % 4 = 0 := by simp [Writer.u32, Writer.append, word]
  rw [Writer.str_eq haligned, Writer.u32, Writer.u32, Writer.append_append, Writer.append_append, Writer.append_append]
  simp only [Writer.append, compoundResult, List.append_assoc]
  rfl

/-- What a COMPOUND is answered with, from where the loop over its operations ends. -/
theorem reply_compound {h : Host} {hash : Bytes → UInt64} {pos : Nat → WalkOrder} {m : Msg} {s : Server4} {xid n : UInt32}
    {ops : List Item} {last : Nfsstat4} {done : Nat} {P : Call4 → Prop} (hm : m.buf = compoundBytes xid n ops) (hn : n ≤ 4096)
    (hrun : ∀ r, r.Ahead m (ops.flatMap Item.encode) → r.ok = true → ∃ c, c.r.ok = true ∧ P c ∧
      Call4.opsLoop h hash pos m n.toNat 0 .ok { v := s.v, fs := s.fs, ckName := s.ckName, r } = (last, done, c)) :
    ∃ c, P c ∧ reply h hash pos m s =
      (resultFrame xid (compoundResult last done c.w.v), { v := c.v, fs := c.fs, ckName := c.ckName }) := by
  have h := Reader.Ahead.of_buf hm
  simp only [compoundBytes, callBytes, callWords, List.flatMap_cons, List.flatMap_nil, List.append_assoc, List.nil_append,
    List.flatMap_append] at h
  obtain ⟨e1, h1, k1⟩ := h.u32
  obtain ⟨-, h2, k2⟩ := h1.u32
  obtain ⟨-, h3, k3⟩ := h2.u32
  obtain ⟨e4, h4, k4⟩ := h3.u32
  obtain ⟨e5, h5, k5⟩ := h4.u32
  obtain ⟨e6, h6, k6⟩ := h5.u32
  obtain ⟨h7, k7⟩ := h6.skipAuth
  obtain ⟨h8, k8⟩ := h7.skipAuth
  have hok := k8.trans (k7.trans (k6.trans (k5.trans (k4.trans (k3.trans (k2.trans k1))))))
  obtain ⟨r9, e9, h9, k9⟩ := h8.string (by decide) hok
  obtain ⟨-, h10, k10⟩ := h9.u32
  obtain ⟨e11, h11, k11⟩ := h10.u32
  have hok11 := k11.trans (k10.trans k9)
  obtain ⟨c, hc, hp, hloop⟩ := hrun _ h11 hok11
  have hmore : ¬ (!((r9.u32 m).2.u32 m).2.ok || decide (4096 < n)) = true := by
    rw [hok11]
    simpa using hn
  refine ⟨c, hp, ?_⟩
  unfold reply
  dsimp only
  rw [e1, e4, e5, e6, if_neg (by decide), if_neg (by decide), if_pos rfl]
  unfold compound readCompound
  dsimp only
  rw [e9]
  dsimp only
  rw [e11, if_neg hmore, hloop]
  dsimp only
  rw [hc, if_neg (by decide), compoundResult_eq]
  rfl

/-- The same on a connection. -/
theorem connection_compound {h : Host} {hash : Bytes → UInt64} {pos : Nat → Nat → WalkOrder} {beyond : Nat → UInt8}
    {s : Server4} {k : Nat} {xid n : UInt32} {ops : List Item} {last : Nfsstat4} {done : Nat} {P : Call4 → Prop}
    (hlen : (compoundBytes xid n ops).length ≤ 0x200000) (hn : n ≤ 4096)
    (hrun : ∀ (m : Msg) (r : Reader), r.Ahead m (ops.flatMap Item.encode) → r.ok = true → ∃ c, c.r.ok = true ∧ P c ∧
      Call4.opsLoop h hash (pos k) m n.toNat 0 .ok { v := s.v, fs := s.fs, ckName := s.ckName, r } = (last, done, c)) :
    ∃ c, P c ∧ connection h hash pos beyond (s, k) (compoundBytes xid n ops) =
      some (resultFrame xid (compoundResult last done c.w.v), ({ v := c.v, fs := c.fs, ckName := c.ckName }, k + 1)) := by
  have hb : (compoundBytes xid n ops).length < 2 ^ 63 := by omega
  obtain ⟨c, hp, hreply⟩ := @reply_compound h hash (pos k) ⟨_, beyond, hb⟩ s xid n ops last done P rfl hn (hrun _)
  refine ⟨c, hp, ?_⟩
  unfold connection
  rw [dif_pos hb, hreply]

end NfsV4

end Prfs
