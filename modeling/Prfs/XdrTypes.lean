import Prfs.XdrAhead

namespace Prfs

/-- The types that values on the wire are put together from. -/
inductive XdrType
  | uint32 | bool | uint64 | bytes | bitmap
  | pair (s t : XdrType)
  deriving DecidableEq, Repr

namespace XdrType

/-- A string of bytes or a row of words is no longer than its length word can say. -/
abbrev Val : XdrType → Type
  | uint32 => UInt32
  | bool => Bool
  | uint64 => UInt64
  | bytes => { bs : Bytes // bs.length < 2 ^ 32 }
  | bitmap => { ws : List UInt32 // ws.length < 2 ^ 32 }
  | pair s t => s.Val × t.Val

/-- Zeros up to a multiple of four. -/
def padding (n : Nat) : Bytes := List.replicate ((4 - n % 4) % 4) 0

def encode : (t : XdrType) → t.Val → Bytes
  | uint32, x => word x
  | bool, x => word (if x = true then 1 else 0)
  | uint64, x => be x
  | bytes, x => word (UInt32.ofNat x.val.length) ++ (x.val ++ padding x.val.length)
  | bitmap, x => word (UInt32.ofNat x.val.length) ++ x.val.flatMap word
  | pair s t, x => s.encode x.1 ++ t.encode x.2

def takeWord (bs : Bytes) : Option (UInt32 × Bytes) :=
  if 4 ≤ bs.length then some (UInt32.ofNat (ofBE (bs.take 4)), bs.drop 4) else none

def takeWords : Nat → Bytes → Option (List UInt32 × Bytes)
  | 0, bs => some ([], bs)
  | k + 1, bs => (takeWord bs).bind (fun x => (takeWords k x.2).map (fun y => (x.1 :: y.1, y.2)))

/-- A value of the type from the front of the bytes, with those that follow it. -/
def decode : (t : XdrType) → Bytes → Option (t.Val × Bytes)
  | uint32, bs => takeWord bs
  | bool, bs => (takeWord bs).bind (fun x =>
      if x.1 = 0 then some (false, x.2) else if x.1 = 1 then some (true, x.2) else none)
  | uint64, bs => if 8 ≤ bs.length then some (rdbe bs, bs.drop 8) else none
  | bytes, bs => (takeWord bs).bind (fun x =>
      let body := x.2.take x.1.toNat
      let rest := x.2.drop x.1.toNat
      if h : body.length < 2 ^ 32 then
        if body.length = x.1.toNat ∧ padding x.1.toNat <+: rest then
          some (⟨body, h⟩, rest.drop (padding x.1.toNat).length)
        else none
      else none)
  | bitmap, bs => (takeWord bs).bind (fun x => (takeWords x.1.toNat x.2).bind (fun y =>
      if h : y.1.length < 2 ^ 32 then some (⟨y.1, h⟩, y.2) else none))
  | pair s t, bs => (s.decode bs).bind (fun x => (t.decode x.2).map (fun y => ((x.1, y.1), y.2)))

variable {bs : Bytes}

theorem takeWord_word (x : UInt32) : takeWord (word x ++ bs) = some (x, bs) := by
  have hx : x.toNat < 256 ^ 4 := by simpa using x.toNat_lt
  have hlen : (word x).length = 4 := rfl
  have htake : (word x ++ bs).take 4 = word x := List.take_left' hlen
  have hdrop : (word x ++ bs).drop 4 = bs := List.drop_left' hlen
  rw [takeWord, if_pos (by rw [List.length_append]; omega), htake, hdrop, word_eq, ofBE_toBE hx, UInt32.ofNat_toNat]

theorem takeWords_flatMap (ws : List UInt32) : takeWords ws.length (ws.flatMap word ++ bs) = some (ws, bs) := by
  induction ws with
  | nil => rfl
  | cons w ws ih =>
    rw [List.length_cons, takeWords, List.flatMap_cons, List.append_assoc, takeWord_word, Option.bind_some, ih, Option.map_some]

theorem toNat_ofNat {n : Nat} (h : n < 2 ^ 32) : (UInt32.ofNat n).toNat = n := by
  rw [UInt32.toNat_ofNat']
  exact Nat.mod_eq_of_lt h

/-- What was encoded is decoded, and the bytes that follow it are left. -/
theorem decode_encode (t : XdrType) (x : t.Val) (bs : Bytes) : t.decode (t.encode x ++ bs) = some (x, bs) := by
  induction t generalizing bs with
  | uint32 => exact takeWord_word x
  | bool =>
    rw [decode, encode, takeWord_word]
    cases x <;> rfl
  | uint64 =>
    have hlen : (be x).length = 8 := be_length x
    rw [decode, encode, if_pos (by rw [List.length_append]; omega), rdbe_be_append, List.drop_left' hlen]
  | bytes =>
    obtain ⟨data, hdata⟩ := x
    have hbody : (data ++ (padding data.length ++ bs)).take data.length = data := List.take_left
    have hrest : (data ++ (padding data.length ++ bs)).drop data.length = padding data.length ++ bs := List.drop_left
    rw [decode, encode, List.append_assoc, takeWord_word, Option.bind_some]
    dsimp only
    rw [toNat_ofNat hdata, List.append_assoc, dif_pos (by rw [hbody]; exact hdata), hrest]
    rw [if_pos ⟨by rw [hbody], List.prefix_append _ _⟩, List.drop_left]
    exact congrArg (fun x => some (x, bs)) (Subtype.ext hbody)
  | bitmap =>
    obtain ⟨ws, hws⟩ := x
    rw [decode, encode]
    dsimp only
    rw [List.append_assoc, takeWord_word, Option.bind_some]
    dsimp only
    rw [toNat_ofNat hws, takeWords_flatMap, Option.bind_some, dif_pos hws]
  | pair s t hs ht =>
    rw [decode, encode, List.append_assoc, hs, Option.bind_some, ht, Option.map_some]

theorem padding_aligned (n : Nat) : (n + (padding n).length) % 4 = 0 := by
  rw [padding, List.length_replicate]
  omega

theorem flatMap_word_length (ws : List UInt32) : (ws.flatMap word).length = 4 * ws.length := by
  induction ws with
  | nil => rfl
  | cons w ws ih =>
    have hlen : (word w).length = 4 := rfl
    rw [List.flatMap_cons, List.length_append, ih, hlen, List.length_cons]
    omega

/-- Every encoding is a multiple of four bytes long. -/
theorem encode_aligned (t : XdrType) (x : t.Val) : (t.encode x).length % 4 = 0 := by
  have hword : ∀ x, (word x).length = 4 := fun _ => rfl
  induction t with
  | uint32 => rw [encode, hword]
  | bool => rw [encode, hword]
  | uint64 =>
    have hlen : (be x).length = 8 := be_length x
    rw [encode, hlen]
  | bytes =>
    have hpad := padding_aligned x.val.length
    rw [encode, List.length_append, List.length_append, hword]
    omega
  | bitmap =>
    rw [encode, List.length_append, flatMap_word_length, hword]
    omega
  | pair s t hs ht =>
    have h1 := hs x.1
    have h2 := ht x.2
    rw [encode, List.length_append]
    omega

end XdrType

theorem Writer.fh_eq (w : Writer) (id snap : UInt64) : w.fh id snap = w.append (Reader.handle id snap) := by
  rw [fh, u64_eq, u64_eq, u32, append_append, append_append]
  rfl

/-- From a multiple of four on, the padding for the whole vector is the padding for the string. -/
theorem Writer.str_eq {w : Writer} (hw : w.v.length % 4 = 0) (s : Bytes) :
    w.str s = w.append (word (UInt32.ofNat s.length) ++ (s ++ XdrType.padding s.length)) := by
  have hword : (word (UInt32.ofNat s.length)).length = 4 := rfl
  have hlen : ((w.u32 (UInt32.ofNat s.length)).append s).v.length = w.v.length + 4 + s.length := by
    rw [Writer.u32, Writer.append, Writer.append, List.length_append, List.length_append, hword]
  have hpad : (w.v.length + 4 + s.length) % 4 = s.length % 4 := by omega
  rw [Writer.str, Writer.bytes, Writer.pad, hlen, hpad, Writer.u32, Writer.append_append, Writer.append_append]
  rfl

end Prfs
