import Prfs.ChangeIds
import Prfs.FieldWrites
import Prfs.Nfs3Setattr

namespace Prfs

/-- The value that a setter gives is the one that the node has. -/
def Setter.Held (a : Attrs) : Setter → Prop
  | .mode x => a.mode = x
  | .uid x => a.uid = x
  | .gid x => a.gid = x
  | .size x => a.size = x
  | .atime x => a.atime = x
  | .mtime x => a.mtime = x
  | .ctime x => a.ctime = x
  | .atimeNsec x => a.atimeNsec = x
  | .mtimeNsec x => a.mtimeNsec = x

namespace NfsV4

/-- An attribute that can be set, with its value. -/
inductive Settable
  | size (x : UInt64)
  | mode (x : UInt32)
  | owner (x : UInt32)
  | ownerGroup (x : UInt32)
  | timeAccess (t : UInt64 × UInt32)
  | timeModify (t : UInt64 × UInt32)
  deriving DecidableEq, Repr

namespace Settable

def bit : Settable → Nat
  | size _ => 4
  | mode _ => 33
  | owner _ => 36
  | ownerGroup _ => 37
  | timeAccess _ => 48
  | timeModify _ => 54

def setters : Settable → List Setter
  | size x => [.size x]
  | mode x => [.mode x]
  | owner x => [.uid x]
  | ownerGroup x => [.gid x]
  | timeAccess t => [.atime t.1, .atimeNsec t.2]
  | timeModify t => [.mtime t.1, .mtimeNsec t.2]

def value : Settable → UInt64 × UInt32
  | size x => (x, 0)
  | mode x => (0, x)
  | owner x => (0, x)
  | ownerGroup x => (0, x)
  | timeAccess t => t
  | timeModify t => t

/-- The value that a node shows of the attribute of a bit. -/
def shown (a : Attrs) : Nat → UInt64 × UInt32
  | 4 => (a.size, 0)
  | 33 => (0, a.mode)
  | 36 => (0, a.uid)
  | 37 => (0, a.gid)
  | 48 => (a.atime, a.atimeNsec)
  | 54 => (a.mtime, a.mtimeNsec)
  | _ => (0, 0)

/-- The attributes that can be set are fields of a record. -/
def writes (id : UInt64) : FieldWrites NodeRec Nat Settable (UInt64 × UInt32) where
  field := bit
  get b r := shown (Attrs.of id r) b
  put r x := x.setters.foldl Setter.apply r
  other r x b hb := by
    cases x <;> (unfold shown; split <;> first | rfl | exact absurd rfl hb)
  same r x hx := by
    cases x <;> simp only [bit, shown, setters, List.foldl, Setter.apply, Attrs.of, Prod.mk.injEq, true_and, and_true] at hx ⊢ <;>
      simp only [hx]

theorem shown_put {id : UInt64} {x : Settable} {r : NodeRec} : (writes id).get x.bit ((writes id).put r x) = x.value := by
  cases x <;> rfl

theorem held_iff {a : Attrs} {x : Settable} : (∀ y ∈ x.setters, y.Held a) ↔ shown a x.bit = x.value := by
  cases x <;> simp [setters, Setter.Held, shown, bit, value, Prod.ext_iff]

theorem put_eq_iff {id : UInt64} {x : Settable} {r : NodeRec} :
    (writes id).put r x = r ↔ ∀ y ∈ x.setters, y.Held (Attrs.of id r) := by
  rw [held_iff]
  constructor
  · intro h
    rw [← @shown_put id x r, h]
    rfl
  · intro h
    exact (writes id).same r x (shown_put.trans h.symm)

end Settable

section Decoded

variable {m : Msg} {now : UInt64} {r : Reader}

/-- What is read for a bit is an attribute of that bit. -/
theorem readFattr_settable {b : Nat} {x : List Setter × Reader} (h : readFattr m now r b = some x) :
    ∃ y : Settable, y.bit = b ∧ y.setters = x.1 := by
  unfold readFattr at h
  split at h
  · exact ⟨.size _, rfl, congrArg Prod.fst (Option.some.inj h)⟩
  · exact ⟨.mode _, rfl, congrArg Prod.fst (Option.some.inj h)⟩
  · exact ⟨.owner _, rfl, congrArg Prod.fst (Option.some.inj h)⟩
  · exact ⟨.ownerGroup _, rfl, congrArg Prod.fst (Option.some.inj h)⟩
  · exact ⟨.timeAccess _, rfl, congrArg Prod.fst (Option.some.inj h)⟩
  · exact ⟨.timeModify _, rfl, congrArg Prod.fst (Option.some.inj h)⟩
  · cases h

/-- The setters of a row of bits are those of attributes, of some of the bits in their order. -/
theorem fattrSetters_settable (bs : List Nat) :
    ∃ ys : List Settable, (ys.map Settable.bit).Sublist bs ∧ fattrSetters m now bs r = ys.flatMap Settable.setters := by
  induction bs generalizing r with
  | nil => exact ⟨[], List.Sublist.refl _, rfl⟩
  | cons b bs ih =>
    rw [fattrSetters]
    cases hx : readFattr m now r b with
    | none => exact ⟨[], List.nil_sublist _, rfl⟩
    | some x =>
      obtain ⟨y, hb, hy⟩ := readFattr_settable hx
      obtain ⟨ys, hsub, hys⟩ := @ih x.2
      refine ⟨y :: ys, ?_, ?_⟩
      · rw [List.map_cons, hb]
        exact hsub.cons_cons b
      · rw [List.flatMap_cons, hy, ← hys]

/-- A `fattr4` leaves what a record shows as it was exactly when each value it sets is the one that is there. -/
theorem fattr4_kept_iff {id : UInt64} {rec : NodeRec} :
    Attrs.of id ((fattr4Setters m now r).foldl Setter.apply rec) = Attrs.of id rec ↔
      ∀ a ∈ fattr4Setters m now r, a.Held (Attrs.of id rec) := by
  obtain ⟨ys, hsub, hys⟩ := @fattrSetters_settable m now ((r.bitmap m).2.u32 m).2 (bitsOf (r.bitmap m).1)
  have hd : (ys.map Settable.bit).Nodup := (List.nodup_range.filter _).sublist hsub
  have hfold : (fattr4Setters m now r).foldl Setter.apply rec = ys.foldl (Settable.writes id).put rec := by
    rw [fattr4Setters, hys, List.foldl_flatMap]
    rfl
  have hheld : (∀ a ∈ fattr4Setters m now r, a.Held (Attrs.of id rec)) ↔ ∀ y ∈ ys, (Settable.writes id).put rec y = rec := by
    simp only [Settable.put_eq_iff, fattr4Setters, hys, List.forall_mem_flatMap]
  rw [hfold, hheld, ← (Settable.writes id).get_foldl_iff hd]
  constructor
  · intro h b
    exact congrArg (Settable.shown · b) h
  · intro h
    rw [(Settable.writes id).foldl_eq_self (((Settable.writes id).get_foldl_iff hd).mp h)]

end Decoded

namespace Call4

variable {c : Call4} {m : Msg} {n : Node}

/-- A SETATTR of a live node goes through the setters of its `fattr4`, and reports that it set none. -/
theorem opSetattr_failed (hn : c.cur = some n) (hl : c.liveCfh live = true) (hfail : (c.opSetattr live m).1 ≠ .ok) :
    (c.opSetattr live m).2.w = (c.w.u32 (c.opSetattr live m).1.code).u32 0 ∧
      (c.opSetattr live m).2.fs = c.fs.setAttrs n (fattr4Setters m c.fs.now (c.r.skip m 16)) := by
  unfold opSetattr at hfail ⊢
  dsimp only at hfail ⊢
  rw [cur_r, liveCfh_r, hn] at hfail ⊢
  dsimp only at hfail ⊢
  rw [hl] at hfail ⊢
  rw [if_neg (by simp), exitWith_fst] at hfail
  rw [if_neg (by simp), exitWith_fst, exitWith_fs]
  dsimp only
  rw [if_neg hfail, applyFattr4_setAttrs]
  exact ⟨rfl, rfl⟩

theorem attrs_setAttrs {fs : PrfsStore} {r : NodeRec} (hr : loadNode fs.kv n.id fs.cur = some r) (hl : n.snap = LATEST)
    (hd : isSnapDir n.id = false) (as : List Setter) : (fs.setAttrs n as).attrs n = Attrs.of n.id (as.foldl Setter.apply r) := by
  by_cases hne : as = []
  · rw [hne]
    exact PrfsStore.attrs_of_live hr hl hd
  · rw [PrfsStore.setAttrs_of_some hr hne]
    exact PrfsStore.attrs_of_live PrfsStore.loadNode_withNode hl hd

/-- A snapshot directory shows its base's record, which no setter of the directory reaches. -/
theorem attrs_setAttrs_snapDir {fs : PrfsStore} (hl : n.snap = LATEST) (hd : isSnapDir n.id = true) (as : List Setter) :
    (fs.setAttrs n as).attrs n = fs.attrs n := by
  have hne : snapBase n.id ≠ n.id := by
    intro he
    have hreal := isSnapDir_snapBase n.id
    rw [he, hd] at hreal
    cases hreal
  cases hr : loadNode fs.kv n.id fs.cur with
  | none => rw [PrfsStore.setAttrs_of_none hr]
  | some r =>
    by_cases has : as = []
    · rw [has]
      rfl
    · rw [PrfsStore.setAttrs_of_some hr has]
      refine PrfsStore.attrs_congr ?_
      rw [hl, PrfsStore.rr_latest, PrfsStore.rr_latest]
      exact PrfsStore.loadNode_withNode_ne hne

/-- A SETATTR of a live node that fails leaves its attributes as they were exactly when each attribute read before the failure
has the value that the node has already, or the node is a snapshot directory; it reports an empty set in any case. -/
theorem setattr_fails_iff (hn : c.cur = some n) (hl : c.liveCfh live = true) (hfail : (c.opSetattr live m).1 ≠ .ok) :
    (c.opSetattr live m).2.w = (c.w.u32 (c.opSetattr live m).1.code).u32 0 ∧
      ((c.opSetattr live m).2.fs.attrs n = c.fs.attrs n ↔
        isSnapDir n.id = true ∨ ∀ a ∈ fattr4Setters m c.fs.now (c.r.skip m 16), a.Held (c.fs.attrs n)) := by
  obtain ⟨hw, hfs⟩ := opSetattr_failed hn hl hfail
  refine ⟨hw, ?_⟩
  have hlatest := cur_live hn hl
  rw [hfs]
  cases hd : isSnapDir n.id with
  | true => exact iff_of_true (attrs_setAttrs_snapDir hlatest hd _) (.inl rfl)
  | false =>
    obtain ⟨rec, hrec⟩ := PrfsStore.load_of_nodeById (cur_nodeById hn) hlatest hd
    rw [attrs_setAttrs hrec hlatest hd, PrfsStore.attrs_of_live hrec hlatest hd, fattr4_kept_iff]
    simp

/-- The arguments of a SETATTR, under the special stateid, of some bits with their bytes. -/
def fattrArgs (bits : List UInt32) (vals : Bytes) : Bytes :=
  List.replicate 16 0 ++ (word (UInt32.ofNat bits.length) ++ (bits.flatMap word ++ (word (UInt32.ofNat vals.length) ++ vals)))

/-- The type, which cannot be set, and with it no other attribute. -/
def setType : Msg := ⟨fattrArgs [2] (word 2), fun _ => 0, by decide⟩

theorem setattr_fails_iff_type : (atLaterFile.opSetattr live setType).2.fs.attrs ⟨2, LATEST⟩ = laterFile.attrs ⟨2, LATEST⟩ := by
  have hfail : (atLaterFile.opSetattr live setType).1 ≠ .ok := by decide
  have hnone : ∀ a ∈ fattr4Setters setType laterFile.now (atLaterFile.r.skip setType 16), a.Held (laterFile.attrs ⟨2, LATEST⟩) := by
    have hnil : fattr4Setters setType laterFile.now (atLaterFile.r.skip setType 16) = [] := by decide
    rw [hnil]
    exact fun _ ha => absurd ha List.not_mem_nil
  exact ((@setattr_fails_iff atLaterFile setType ⟨2, LATEST⟩ (by decide) (by decide) hfail).2).mpr (.inr hnone)

/-- The size, and the file's id behind it. -/
def setSizeAndFileid : Msg := ⟨fattrArgs [0x100010] (be 7 ++ be 2), fun _ => 0, by decide⟩

/-- The size, without the bytes of it. -/
def setSizeCut : Msg := ⟨fattrArgs [0x10] [], fun _ => 0, by decide⟩

/-- Where a SETATTR fails at the second attribute, the first is set; and where the bytes end, what is missing is set to zero. -/
theorem setattr_fails_changed : let grown := (atLaterFile.opSetattr live setSizeAndFileid).2
    (atLaterFile.opSetattr live setSizeAndFileid).1 = .attrnotsupp ∧ (laterFile.attrs ⟨2, LATEST⟩).size = 0 ∧
      (grown.fs.attrs ⟨2, LATEST⟩).size = 7 ∧
      let cut : Call4 := { atLaterFile with fs := grown.fs }
      (cut.opSetattr live setSizeCut).1 = .inval ∧ ((cut.opSetattr live setSizeCut).2.fs.attrs ⟨2, LATEST⟩).size = 0 := by
  decide

end Call4

end NfsV4

end Prfs
