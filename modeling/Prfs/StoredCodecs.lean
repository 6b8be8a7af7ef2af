import Prfs.Content
import Prfs.NodeRec
import Prfs.XdrAhead

namespace Prfs

namespace Content

/-- The first four bytes of a stored policy. -/
def PCC1 : Bytes := [0x50, 0x43, 0x43, 0x31]

/-- The bytes of a word, least significant first. -/
def u32Bytes (v : UInt32) : Bytes := (List.range 4).map (fun i => (v >>> UInt32.ofNat (8 * i)).toUInt8)

/-- The word whose bytes stand from an offset on. -/
def u32At (v : Bytes) (off : Nat) : UInt32 :=
  (List.range 4).foldl (fun x i => x ||| (v.getD (off + i) 0).toUInt32 <<< UInt32.ofNat (8 * i)) 0

def serialize (c : ContentConfig) : Bytes :=
  PCC1 ++ (u32Bytes c.blockSize ++ ([c.entropy, c.sparsePercent, c.dedupPercent, 0] ++ u32Bytes c.dedupCorpus))

/-- No bytes are the default policy; the only error is the one that is thrown. -/
def deserialize (v : Bytes) : Except String ContentConfig :=
  if v = [] then .ok {}
  else if v.length < 16 ∨ v.take 4 ≠ PCC1 then .error "content: bad config blob"
  else .ok {
    blockSize := u32At v 4
    entropy := v.getD 8 0
    sparsePercent := v.getD 9 0
    dedupPercent := v.getD 10 0
    dedupCorpus := u32At v 12 }

/-- A word is read where its bytes are, which the shifts put together from the lowest up. -/
theorem u32At_eq {v : Bytes} {off : Nat} {x : UInt32} (h : u32Bytes x <+: v.drop off) : u32At v off = x := by
  obtain ⟨rest, hrest⟩ := h
  have hget : ∀ i, v.getD (off + i) 0 = (u32Bytes x ++ rest).getD i 0 := by
    intro i
    rw [List.getD_eq_getElem?_getD, List.getD_eq_getElem?_getD, ← List.getElem?_drop, hrest]
  have h0 : v.getD (off + 0) 0 = (x >>> 0).toUInt8 := hget 0
  have h1 : v.getD (off + 1) 0 = (x >>> 8).toUInt8 := hget 1
  have h2 : v.getD (off + 2) 0 = (x >>> 16).toUInt8 := hget 2
  have h3 : v.getD (off + 3) 0 = (x >>> 24).toUInt8 := hget 3
  have hfold : u32At v off = ((0 : UInt32) ||| (v.getD (off + 0) 0).toUInt32 <<< 0 ||| (v.getD (off + 1) 0).toUInt32 <<< 8 |||
    (v.getD (off + 2) 0).toUInt32 <<< 16 ||| (v.getD (off + 3) 0).toUInt32 <<< 24) := rfl
  have hx : x.toNat < 256 ^ 4 := by simpa using x.toNat_lt
  have hhigh : u32At v off = (x >>> 24).toUInt8.toUInt32 <<< 24 ||| (x >>> 16).toUInt8.toUInt32 <<< 16 |||
      (x >>> 8).toUInt8.toUInt32 <<< 8 ||| x.toUInt8.toUInt32 := by
    have hcomm : ∀ a b c d : UInt32, a ||| b ||| c ||| d = d ||| c ||| b ||| a := by
      intro a b c d
      rw [UInt32.or_comm _ d, UInt32.or_comm _ c, UInt32.or_comm a b, ← UInt32.or_assoc, ← UInt32.or_assoc]
    rw [hfold, h0, h1, h2, h3, UInt32.zero_or, UInt32.shiftRight_zero, UInt32.shiftLeft_zero, hcomm]
  apply UInt32.toNat_inj.mp
  rw [hhigh, or_shifts_toNat]
  exact (congrArg ofBE (word_eq x)).trans (ofBE_toBE hx)

theorem serialize_length (c : ContentConfig) : (serialize c).length = 16 := rfl

@[simp] theorem deserialize_serialize (c : ContentConfig) : deserialize (serialize c) = .ok c := by
  have hne : serialize c ≠ [] := List.cons_ne_nil _ _
  have hlen : ¬ (serialize c).length < 16 := by
    rw [serialize_length]
    decide
  have hmagic : (serialize c).take 4 = PCC1 := rfl
  have hblock : u32At (serialize c) 4 = c.blockSize := u32At_eq (List.prefix_append _ _)
  have hcorpus : u32At (serialize c) 12 = c.dedupCorpus := u32At_eq (List.prefix_refl _)
  rw [deserialize, if_neg hne, if_neg (not_or.mpr ⟨hlen, not_not.mpr hmagic⟩), hblock, hcorpus]
  rfl

/-- Bytes that are there are refused when there are too few of them or others in front. -/
theorem deserialize_eq_error {v : Bytes} :
    deserialize v = .error "content: bad config blob" ↔ v ≠ [] ∧ (v.length < 16 ∨ ¬ PCC1 <+: v) := by
  have hstart : PCC1 <+: v ↔ v.take 4 = PCC1 := List.prefix_iff_eq_take.trans eq_comm
  rw [deserialize, hstart]
  split_ifs with hnil hbad
  · simp [hnil]
  · exact iff_of_true rfl ⟨hnil, hbad⟩
  · exact iff_of_false nofun (fun h => hbad h.2)

end Content

/-- Records and policies are read back from the store as they were put there, no two records
are stored as the same bytes, and bytes are no policy just when they are too few or start otherwise. -/
theorem stored_records_decode :
    (∀ r, deserialize (serialize r) = r) ∧ Function.Injective serialize ∧
    (∀ c, Content.deserialize (Content.serialize c) = .ok c) ∧
    ∀ v : Bytes, Content.deserialize v = .error "content: bad config blob" ↔
      v ≠ [] ∧ (v.length < 16 ∨ ¬ Content.PCC1 <+: v) := by
  refine ⟨deserialize_serialize, ?_, Content.deserialize_serialize, fun _ => Content.deserialize_eq_error⟩
  intro r s h
  rw [← deserialize_serialize r, h, deserialize_serialize]

end Prfs
