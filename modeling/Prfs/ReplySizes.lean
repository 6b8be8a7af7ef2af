import Prfs.Nfs4Listing
import Prfs.PagedScans

namespace Prfs

namespace Writer

variable {w : Writer}

theorem append_length (w : Writer) (bs : Bytes) : (w.append bs).v.length = w.v.length + bs.length := List.length_append

theorem u32_length (w : Writer) (x : UInt32) : (w.u32 x).v.length = w.v.length + 4 := append_length ..

theorem u64_length (w : Writer) (x : UInt64) : (w.u64 x).v.length = w.v.length + 8 := by
  rw [u64, u32_length, u32_length]

theorem fh_length (w : Writer) (id snap : UInt64) : (w.fh id snap).v.length = w.v.length + 20 := by
  rw [fh, u64_length, u64_length, u32_length]

theorem timeNs_length (w : Writer) (t : UInt64) (ns : UInt32) : (w.timeNs t ns).v.length = w.v.length + 8 := by
  rw [timeNs, u32_length, u32_length]

theorem time_length (w : Writer) (t : UInt64) : (w.time t).v.length = w.v.length + 8 := by
  rw [time, u32_length, u32_length]

theorem str_length (w : Writer) (s : Bytes) : (w.str s).v.length =
    w.v.length + 4 + s.length + (4 - (w.v.length + 4 + s.length) % 4) % 4 := by
  rw [str, bytes, pad, append_length, List.length_replicate, append_length, u32_length]

end Writer

namespace NfsV3

variable {h : Host} {fs : PrfsStore} {perEntry : Nat} {encode : Writer → DirEnt → Writer}

theorem encodeFattr_length (h : Host) (fs : PrfsStore) (w : Writer) (n : Node) :
    (encodeFattr h fs w n).v.length = w.v.length + 84 := by
  simp only [encodeFattr, Writer.time_length, Writer.timeNs_length, Writer.u64_length, Writer.u32_length]

theorem encodePostOp_length (h : Host) (fs : PrfsStore) (w : Writer) (n : Node) :
    (encodePostOp h fs w (some n)).v.length = w.v.length + 88 := by
  rw [encodePostOp, encodeFattr_length, Writer.u32_length]

/-- The bytes an entry takes, with the zeros up to a multiple of four of the whole vector. -/
def Sized (perEntry : Nat) (encode : Writer → DirEnt → Writer) : Prop :=
  ∀ w e, (encode w e).v.length =
    w.v.length + 24 + e.name.length + (4 - (w.v.length + e.name.length) % 4) % 4 + perEntry

theorem encodeEntry_sized : Sized 0 encodeEntry := by
  intro w e
  rw [encodeEntry, Writer.u64_length, Writer.str_length, Writer.u64_length, Writer.u32_length]
  omega

theorem encodeEntryPlus_sized (h : Host) (fs : PrfsStore) : Sized (88 + 24) (encodeEntryPlus h fs) := by
  intro w e
  rw [encodeEntryPlus, Writer.fh_length, Writer.u32_length, encodePostOp_length, encodeEntry_sized]

theorem DirEnt.size_eq (e : DirEnt) (perEntry : Nat) :
    e.size perEntry = 24 + (e.name.length + 3) / 4 * 4 + perEntry := by
  rw [DirEnt.size, entrySize, pad4]
  omega

/-- From a multiple of four on, entries take what they are counted with. -/
theorem Sized.aligned (henc : Sized perEntry encode) (hper : perEntry % 4 = 0) (es : List DirEnt) {w : Writer}
    (hw : w.v.length % 4 = 0) :
    (es.foldl encode w).v.length = w.v.length + (es.map (DirEnt.size perEntry)).sum := by
  induction es generalizing w with
  | nil => rfl
  | cons e es ih =>
    have hone := henc w e
    have hsize := e.size_eq perEntry
    rw [List.foldl_cons, ih (by omega), List.map_cons, List.sum_cons]
    omega

/-- Elsewhere the first of them takes up to three more. -/
theorem Sized.le (henc : Sized perEntry encode) (hper : perEntry % 4 = 0) (es : List DirEnt) (w : Writer) :
    (es.foldl encode w).v.length ≤ w.v.length + (es.map (DirEnt.size perEntry)).sum + 3 := by
  cases es with
  | nil => exact Nat.le_add_right ..
  | cons e es =>
    have hone := henc w e
    have hsize := e.size_eq perEntry
    rw [List.foldl_cons, henc.aligned hper es (by omega), List.map_cons, List.sum_cons]
    omega

/-- A reply with an entry is no longer than asked for. -/
theorem listDir_length_le {v : NfsV3} (hs : PrfsStore.Run .empty v.fs) (henc : Sized perEntry encode)
    (hper : perEntry % 4 = 0) (w : Writer) {id snap cookie : UInt64} {count : Nat} {dir : Node} {eof : Bool} {p : Page}
    (hdir : v.fs.nodeById id snap = some dir) (htype : (v.fs.attrs dir).type = .DIR)
    (hp : pageDir v dir cookie count perEntry = some (eof, p)) (hne : p.ents ≠ []) :
    (listDir h v w id snap cookie count perEntry encode).2.1.v.length ≤ w.v.length + count := by
  have hents : p.ents = greedy (DirEnt.size perEntry) count 128 (pending v dir cookie) := (pageDir_takes hs hp).ents
  have hsum := greedy_sum_le (hents ▸ hne)
  rw [← hents] at hsum
  simp only [listDir, hdir, htype, hp, ne_eq, not_true, if_false, answer, Writer.u32_length]
  have hfold := henc.le hper p.ents (((encodePostOp h v.fs (w.u32 Nfsstat3.ok.code) (some dir)).u32 0).u32 0)
  simp only [Writer.u32_length, encodePostOp_length] at hfold
  omega

end NfsV3

namespace NfsV4.Call4

variable {c : Call4} {dir : Node} {req : List UInt32} {count : Nat} {cookie : UInt64}

/-- A result with an entry leaves 80 bytes of what is asked for. -/
theorem readdirAt_length_le (hs : PrfsStore.Run .empty c.fs) {eof : Bool} {es : List (Bytes × Node)}
    {y : OrdMap UInt64 Bytes × UInt64} (hgets : c.Gets dir req count (c.ckName, cookie) eof es y) (hne : es ≠ []) :
    (c.readdirAt dir req count cookie).2.w.v.length + 80 ≤ c.w.v.length + count := by
  obtain ⟨c', hat, hw, hes, hy⟩ := hgets
  have htaken := (gets_fills hs dir req count).ents (resumes_of_ok hat) ⟨c', hat, hw, hes, hy⟩
  have hsum := greedy_sum_le (htaken ▸ hne)
  rw [← htaken] at hsum
  have hlen := listing_length c.fs req c.w es eof
  rw [← hw] at hlen
  have hat' : c.readdirAt dir req count cookie = (.ok, c') := hat
  rw [hat', hlen]
  omega

end NfsV4.Call4

/-- A listing with at least one entry is within the count it is asked for with, as it is encoded. -/
theorem listing_sizes {v : NfsV3} {c : NfsV4.Call4} (hv : PrfsStore.Run .empty v.fs) (hc : PrfsStore.Run .empty c.fs)
    (h : Host) (w : Writer) (id snap : UInt64) (dir dir' : Node) (cookie : UInt64) (count : Nat) (req : List UInt32)
    (hdir : v.fs.nodeById id snap = some dir) (htype : (v.fs.attrs dir).type = .DIR) :
    (∀ eof p, NfsV3.pageDir v dir cookie count 0 = some (eof, p) → p.ents ≠ [] →
      (NfsV3.listDir h v w id snap cookie count 0 NfsV3.encodeEntry).2.1.v.length ≤ w.v.length + count) ∧
    (∀ eof p, NfsV3.pageDir v dir cookie count (88 + 24) = some (eof, p) → p.ents ≠ [] →
      (NfsV3.listDir h v w id snap cookie count (88 + 24) (NfsV3.encodeEntryPlus h v.fs)).2.1.v.length ≤
        w.v.length + count) ∧
    ∀ eof es y, c.Gets dir' req count (c.ckName, cookie) eof es y → es ≠ [] →
      (c.readdirAt dir' req count cookie).2.w.v.length ≤ c.w.v.length + count := by
  refine ⟨fun eof p hp hne => ?_, fun eof p hp hne => ?_, fun eof es y hgets hne => ?_⟩
  · exact NfsV3.listDir_length_le hv NfsV3.encodeEntry_sized rfl w hdir htype hp hne
  · exact NfsV3.listDir_length_le hv (NfsV3.encodeEntryPlus_sized h v.fs) rfl w hdir htype hp hne
  · have hle := NfsV4.Call4.readdirAt_length_le hc hgets hne
    omega

/-- READDIR of three names with room for one of them, from a writer that is not at a multiple of four. -/
theorem listing_sizes_names :
    (NfsV3.listDir {} { fs := PrfsStore.threeNames } ⟨[0]⟩ 1 LATEST 0 212 0 NfsV3.encodeEntry).2.1.v.length ≤ 1 + 212 := by
  have hrun : PrfsStore.Run .empty PrfsStore.threeNames := PrfsStore.run_after (by decide)
  obtain ⟨⟨eof, p⟩, hp, hents⟩ : ∃ r, NfsV3.pageDir { fs := PrfsStore.threeNames } ⟨1, LATEST⟩ 0 212 0 = some r ∧
      r.2.ents.length = 3 := Option.map_eq_some_iff.mp (by decide)
  have hne : p.ents ≠ [] := by
    rintro hnil
    rw [hnil] at hents
    cases hents
  exact (listing_sizes (v := { fs := PrfsStore.threeNames }) (c := { v := {}, fs := PrfsStore.threeNames }) hrun hrun {}
    ⟨[0]⟩ 1 LATEST ⟨1, LATEST⟩ ⟨1, LATEST⟩ 0 212 [] (by decide) (by decide)).1 eof p hp hne

end Prfs
