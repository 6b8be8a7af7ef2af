import Prfs.Nfs4Setattr
import Prfs.XdrTypes

namespace Prfs

namespace Fattr4

/-- The number of an attribute in the protocol. -/
def bit : Fattr4 → Nat
  | supportedAttrs => 0
  | type => 1
  | fhExpireType => 2
  | change => 3
  | size => 4
  | linkSupport => 5
  | symlinkSupport => 6
  | namedAttr => 7
  | fsid => 8
  | uniqueHandles => 9
  | leaseTime => 10
  | rdattrError => 11
  | filehandle => 19
  | fileid => 20
  | maxfilesize => 27
  | maxlink => 28
  | maxname => 29
  | maxread => 30
  | maxwrite => 31
  | mode => 33
  | noTrunc => 34
  | numlinks => 35
  | owner => 36
  | ownerGroup => 37
  | spaceUsed => 45
  | timeAccess => 47
  | timeMetadata => 52
  | timeModify => 53
  | mountedOnFileid => 55

/-- The type that the protocol gives the attribute of each number: `bitmap4`, the enumerations and counters of 32 bits, `bool`,
`uint64_t`, `fsid4`, `nfs_fh4` and strings, and `nfstime4`. -/
def xdr : Fattr4 → XdrType
  | supportedAttrs => .bitmap
  | type | fhExpireType | leaseTime | rdattrError | maxlink | maxname | mode | numlinks => .uint32
  | linkSupport | symlinkSupport | namedAttr | uniqueHandles | noTrunc => .bool
  | change | size | fileid | maxfilesize | maxread | maxwrite | spaceUsed | mountedOnFileid => .uint64
  | fsid => .pair .uint64 .uint64
  | filehandle | owner | ownerGroup => .bytes
  | timeAccess | timeMetadata | timeModify => .pair .uint64 .uint32

theorem ofBit_bit (a : Fattr4) : ofBit a.bit = some a := by cases a <;> rfl

theorem ofBit_eq_some_iff {b : Nat} {a : Fattr4} : ofBit b = some a ↔ a.bit = b := by
  constructor
  · intro h
    unfold ofBit at h
    split at h <;> first
      | cases h; rfl
      | cases h
  · rintro rfl
    exact ofBit_bit a

end Fattr4

theorem toString_length_le (x : UInt64) : (toString x).length ≤ 20 := by
  rw [toString]
  split_ifs
  · simp
  · rw [List.length_reverse, List.length_map, Nat.digits_length_le_iff (by decide)]
    have hx := x.toNat_lt
    omega

theorem toString_length_lt (x : UInt64) : (toString x).length < 2 ^ 32 :=
  lt_of_le_of_lt (toString_length_le x) (by decide)

namespace NfsV4

/-- The words of a bitmap of the attributes that are reported. -/
def supportedWords : List UInt32 :=
  [maskWord ((List.range 64).filter attrSupported) 0, maskWord ((List.range 64).filter attrSupported) 1]

/-- The value of each attribute of a node, as its type has it. -/
def attrValue (fs : PrfsStore) (n : Node) (id snap : UInt64) : (a : Fattr4) → a.xdr.Val
  | .supportedAttrs => ⟨supportedWords, by decide⟩
  | .type => ftype4 (fs.attrs n).type
  | .fhExpireType => (0 : UInt32)
  | .change => (fs.attrs n).ctime
  | .size => (fs.attrs n).size
  | .linkSupport => true
  | .symlinkSupport => true
  | .namedAttr => false
  | .fsid => (if snap = LATEST then 0 else snap, (0 : UInt64))
  | .uniqueHandles => true
  | .leaseTime => LEASE_TIME
  | .rdattrError => Nfsstat4.ok.code
  | .filehandle => ⟨be id ++ be snap, by simp⟩
  | .fileid => viewFileid id snap
  | .maxfilesize => (0x4000000000000000 : UInt64)
  | .maxlink => (0xFFFF : UInt32)
  | .maxname => (255 : UInt32)
  | .maxread => MAX_IO.toUInt64
  | .maxwrite => MAX_IO.toUInt64
  | .mode => (fs.attrs n).mode &&& 0xFFF
  | .noTrunc => true
  | .numlinks => (fs.attrs n).nlink
  | .owner => ⟨toString (fs.attrs n).uid.toUInt64, toString_length_lt _⟩
  | .ownerGroup => ⟨toString (fs.attrs n).gid.toUInt64, toString_length_lt _⟩
  | .spaceUsed => (fs.attrs n).size
  | .timeAccess => ((fs.attrs n).atime, (fs.attrs n).atimeNsec)
  | .timeMetadata => ((fs.attrs n).ctime, (0 : UInt32))
  | .timeModify => ((fs.attrs n).mtime, (fs.attrs n).mtimeNsec)
  | .mountedOnFileid => viewFileid id snap

section Values

variable {fs : PrfsStore} {n : Node} {id snap : UInt64} {w : Writer}

/-- Each value is written as the protocol's type for it has it, from a multiple of four on. -/
theorem encodeAttrValue_eq (hw : w.v.length % 4 = 0) (a : Fattr4) :
    encodeAttrValue fs w n id snap a = w.append (a.xdr.encode (attrValue fs n id snap a)) := by
  have hu64 : ∀ x, w.u64 x = w.append (be x) := w.u64_eq
  cases a with
  | owner => exact Writer.str_eq hw _
  | ownerGroup => exact Writer.str_eq hw _
  | change => exact hu64 _
  | size => exact hu64 _
  | fileid => exact hu64 _
  | mountedOnFileid => exact hu64 _
  | maxfilesize => exact hu64 _
  | maxread => exact hu64 _
  | maxwrite => exact hu64 _
  | spaceUsed => exact hu64 _
  | fsid => exact (Writer.u64_eq _ _).trans (by rw [hu64, Writer.append_append]; rfl)
  | timeAccess => exact (by rw [encodeAttrValue, Writer.time4, hu64, Writer.u32, Writer.append_append]; rfl)
  | timeMetadata => exact (by rw [encodeAttrValue, Writer.time4, hu64, Writer.u32, Writer.append_append]; rfl)
  | timeModify => exact (by rw [encodeAttrValue, Writer.time4, hu64, Writer.u32, Writer.append_append]; rfl)
  | supportedAttrs =>
    rw [encodeAttrValue, supportedBitmap, Writer.u32, Writer.u32, Writer.u32, Writer.append_append, Writer.append_append]
    rfl
  | filehandle =>
    have hlen : (be id ++ be snap).length = 16 := by simp
    have henc : Fattr4.filehandle.xdr.encode (attrValue fs n id snap .filehandle) = word (UInt32.ofNat (be id ++ be snap).length) ++
      ((be id ++ be snap) ++ XdrType.padding (be id ++ be snap).length) := rfl
    have hpad : XdrType.padding 16 = [] := rfl
    rw [henc, hlen, hpad, List.append_nil, encodeAttrValue, Writer.fh_eq]
    rfl
  | _ => rfl

/-- The values of a row of attributes, one after the other. -/
def attrVals (fs : PrfsStore) (n : Node) (id snap : UInt64) (as : List Fattr4) : Bytes :=
  as.flatMap (fun a => a.xdr.encode (attrValue fs n id snap a))

theorem foldl_encodeAttrValue (as : List Fattr4) (hw : w.v.length % 4 = 0) :
    as.foldl (fun w a => encodeAttrValue fs w n id snap a) w = w.append (attrVals fs n id snap as) := by
  induction as generalizing w with
  | nil => simp [attrVals, Writer.append]
  | cons a as ih =>
    have halign := a.xdr.encode_aligned (attrValue fs n id snap a)
    have hlen : (w.append (a.xdr.encode (attrValue fs n id snap a))).v.length % 4 = 0 := by
      rw [Writer.append, List.length_append]
      omega
    rw [List.foldl_cons, encodeAttrValue_eq hw, ih hlen, Writer.append_append]
    rfl

/-- An attribute with a value of its type. -/
abbrev AttrVal : Type := Σ a : Fattr4, a.xdr.Val

/-- Walk the bits of a mask over the bytes of the values, each by the type of its attribute. -/
def decodeAttrs : List Nat → Bytes → Option (List AttrVal × Bytes)
  | [], bs => some ([], bs)
  | b :: bits, bs => (Fattr4.ofBit b).bind (fun a => (a.xdr.decode bs).bind (fun x =>
      (decodeAttrs bits x.2).map (fun y => (⟨a, x.1⟩ :: y.1, y.2))))

theorem decodeAttrs_attrVals {bits : List Nat} (hb : ∀ b ∈ bits, attrSupported b = true) (bs : Bytes) :
    decodeAttrs bits (attrVals fs n id snap (bits.filterMap Fattr4.ofBit) ++ bs) =
      some ((bits.filterMap Fattr4.ofBit).map (fun a => ⟨a, attrValue fs n id snap a⟩), bs) := by
  induction bits with
  | nil => rfl
  | cons b bits ih =>
    obtain ⟨a, ha⟩ := Option.isSome_iff_exists.mp (hb b List.mem_cons_self)
    have hrest := ih fun x hx => hb x (List.mem_cons_of_mem b hx)
    rw [List.filterMap_cons_some ha, decodeAttrs, ha, attrVals, List.flatMap_cons, List.append_assoc]
    dsimp only [Option.bind_some]
    rw [XdrType.decode_encode, Option.bind_some]
    dsimp only
    rw [← attrVals, hrest]
    rfl

end Values

section Masks

theorem bit_toNat {k : Nat} (hk : k < 32) : (1 <<< UInt32.ofNat k : UInt32).toNat = 2 ^ k := by
  have hsmall : k < 2 ^ 32 := by omega
  rw [UInt32.toNat_shiftLeft, UInt32.toNat_ofNat', Nat.mod_eq_of_lt hsmall, Nat.mod_eq_of_lt hk, UInt32.toNat_one,
    Nat.one_shiftLeft]
  exact Nat.mod_eq_of_lt (Nat.pow_lt_pow_right (by decide) hk)

theorem and_bit_ne_zero_iff {x : UInt32} {k : Nat} (hk : k < 32) :
    x &&& (1 <<< UInt32.ofNat k) ≠ 0 ↔ x.toNat.testBit k = true := by
  rw [ne_eq, ← UInt32.toNat_inj, UInt32.toNat_and, bit_toNat hk, UInt32.toNat_zero, Nat.and_two_pow]
  cases x.toNat.testBit k <;> simp

theorem or_bit_testBit {x : UInt32} {j k : Nat} (hj : j < 32) :
    (x ||| (1 <<< UInt32.ofNat j)).toNat.testBit k = true ↔ x.toNat.testBit k = true ∨ j = k := by
  rw [UInt32.toNat_or, bit_toNat hj, Nat.testBit_or, Bool.or_eq_true, Nat.testBit_two_pow, decide_eq_true_eq]

/-- A word of a bitmap has the bits of the list that are in it. -/
theorem maskWord_testBit {bits : List Nat} {i k : Nat} :
    (maskWord bits i).toNat.testBit k = true ↔ ∃ b ∈ bits, b / 32 = i ∧ b % 32 = k := by
  have hfold : ∀ acc : UInt32, (bits.foldl (fun acc b => if b / 32 = i then acc ||| (1 <<< UInt32.ofNat (b % 32)) else acc)
      acc).toNat.testBit k = true ↔ acc.toNat.testBit k = true ∨ ∃ b ∈ bits, b / 32 = i ∧ b % 32 = k := by
    induction bits with
    | nil => simp
    | cons b bits ih =>
      intro acc
      rw [List.foldl_cons, ih]
      split_ifs with hi
      · rw [or_bit_testBit (Nat.mod_lt b (by decide))]
        simp [hi, or_assoc]
      · simp [hi]
  rw [maskWord, hfold]
  simp

/-- The two words of a bitmap of the bits of a list. -/
def maskOf (bits : List Nat) : List UInt32 := [maskWord bits 0, maskWord bits 1]

theorem requested_maskOf {bits : List Nat} (hb : ∀ b ∈ bits, b < 64) {b : Nat} : requested (maskOf bits) b = true ↔ b ∈ bits := by
  have hword : ∀ i, b / 32 = i → (maskWord bits i &&& (1 <<< UInt32.ofNat (b % 32)) ≠ 0 ↔ b ∈ bits) := by
    intro i hi
    rw [and_bit_ne_zero_iff (Nat.mod_lt b (by decide)), maskWord_testBit]
    constructor
    · rintro ⟨x, hx, hdiv, hmod⟩
      obtain rfl : x = b := by omega
      exact hx
    · exact fun h => ⟨b, h, hi, rfl⟩
  unfold requested maskOf
  rcases Nat.lt_or_ge b 64 with hlt | hge
  · obtain hi | hi : b / 32 = 0 ∨ b / 32 = 1 := by omega
    · rw [hi]
      exact decide_eq_true_iff.trans (hword 0 hi)
    · rw [hi]
      exact decide_eq_true_iff.trans (hword 1 hi)
  · have hnone : [maskWord bits 0, maskWord bits 1][b / 32]? = none := List.getElem?_eq_none (by simp; omega)
    rw [hnone]
    exact iff_of_false Bool.false_ne_true fun h => absurd (hb b h) (by omega)

/-- The bits of the two words are those of the list. -/
theorem bitsOf_maskOf {p : Nat → Bool} : bitsOf (maskOf ((List.range 64).filter p)) = (List.range 64).filter p := by
  refine List.filter_congr fun b hb => ?_
  rw [Bool.eq_iff_iff, requested_maskOf (fun x hx => List.mem_range.mp (List.mem_filter.mp hx).1), List.mem_filter]
  exact and_iff_right hb

end Masks

section Agree

variable {fs : PrfsStore} {n : Node} {id snap : UInt64}

theorem attrValue_length_le (a : Fattr4) : (a.xdr.encode (attrValue fs n id snap a)).length ≤ 28 := by
  have hstr : ∀ {x : UInt64} {hx}, (XdrType.bytes.encode ⟨toString x, hx⟩).length ≤ 28 := by
    intro x hx
    have hle := toString_length_le x
    have hpad := List.length_replicate (n := (4 - (toString x).length % 4) % 4) (a := (0 : UInt8))
    have hword : ∀ x, (word x).length = 4 := fun _ => rfl
    rw [XdrType.encode, List.length_append, List.length_append, XdrType.padding, hword, hpad]
    dsimp only
    omega
  cases a with
  | owner => exact hstr
  | ownerGroup => exact hstr
  | _ => simp [Fattr4.xdr, XdrType.encode, attrValue, word, supportedWords, XdrType.padding]

theorem attrVals_length_le (as : List Fattr4) : (attrVals fs n id snap as).length ≤ 28 * as.length := by
  induction as with
  | nil => exact Nat.le_refl _
  | cons a as ih =>
    have hone := @attrValue_length_le fs n id snap a
    rw [attrVals, List.flatMap_cons, List.length_append, ← attrVals, List.length_cons]
    omega

/-- The mask has exactly the requested attributes that are reported, the values are theirs in the order of their numbers, each
by its type, and a walk of the mask over the values reads those and ends where they end; the attributes that are reported are
the ones with a number and a type. -/
theorem fattr4_agrees (fs : PrfsStore) (w : Writer) (req : List UInt32) (n : Node) (id snap : UInt64) :
    (∃ mask vals, encodeFattr4 fs w req n id snap = (mask.foldl Writer.u32 (w.u32 (UInt32.ofNat mask.length))).bytes vals ∧
      vals.length < 2 ^ 32 ∧ (∀ b, requested mask b = true ↔ requested req b = true ∧ attrSupported b = true) ∧
      vals = attrVals fs n id snap ((bitsOf mask).filterMap Fattr4.ofBit) ∧
      decodeAttrs (bitsOf mask) vals =
        some (((bitsOf mask).filterMap Fattr4.ofBit).map (fun a => ⟨a, attrValue fs n id snap a⟩), [])) ∧
    supportedBitmap w = supportedWords.foldl Writer.u32 (w.u32 (UInt32.ofNat supportedWords.length)) ∧
    (∀ b, requested supportedWords b = true ↔ ∃ a, Fattr4.ofBit b = some a) ∧
    ∀ b a, Fattr4.ofBit b = some a ↔ a.bit = b := by
  have hlt : ∀ {p : Nat → Bool}, ∀ b ∈ (List.range 64).filter p, b < 64 := fun b hb => List.mem_range.mp (List.mem_filter.mp hb).1
  have h64 : ∀ {b}, attrSupported b = true → b < 64 := by
    intro b hb
    obtain ⟨a, ha⟩ := Option.isSome_iff_exists.mp hb
    rw [← Fattr4.ofBit_eq_some_iff.mp ha]
    cases a <;> decide
  refine ⟨?_, rfl, fun b => ?_, fun b a => Fattr4.ofBit_eq_some_iff⟩
  · let bits := (List.range 64).filter (fun b => requested req b && attrSupported b)
    have hbits : bitsOf (maskOf bits) = bits := bitsOf_maskOf
    have hsup : ∀ b ∈ bits, attrSupported b = true := fun b hb => (Bool.and_eq_true_iff.mp (List.mem_filter.mp hb).2).2
    refine ⟨maskOf bits, attrVals fs n id snap (bits.filterMap Fattr4.ofBit), ?_, ?_, fun b => ?_, by rw [hbits], ?_⟩
    · unfold encodeFattr4
      dsimp only
      rw [foldl_encodeAttrValue _ rfl]
      rfl
    · have hlen := @attrVals_length_le fs n id snap (bits.filterMap Fattr4.ofBit)
      have hmap := List.length_filterMap_le Fattr4.ofBit bits
      have hfilter : bits.length ≤ 64 := (List.length_filter_le _ _).trans_eq List.length_range
      omega
    · rw [requested_maskOf hlt, List.mem_filter, Bool.and_eq_true]
      exact and_iff_right_of_imp fun h => List.mem_range.mpr (h64 h.2)
    · have hwalk := @decodeAttrs_attrVals fs n id snap bits hsup []
      rw [List.append_nil] at hwalk
      rw [hbits, hwalk]
  · have hmask : supportedWords = maskOf ((List.range 64).filter attrSupported) := rfl
    rw [hmask, requested_maskOf hlt, List.mem_filter, ← Option.isSome_iff_exists]
    exact and_iff_right_of_imp fun h => List.mem_range.mpr (h64 h)

end Agree

end NfsV4

end Prfs
