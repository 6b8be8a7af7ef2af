import Prfs.Nfs4Listing
import Prfs.PagedScans

namespace Prfs

open NfsV3 (entrySize dot CK_DOT)

/-- A listing that is answered OK goes on exactly when the next entry fits the count behind a header of 128 bytes, of 96
in version 4, and a client gets to its end exactly when every entry left does. -/
theorem readdir_progress_iff {v : NfsV3} {c : NfsV4.Call4} (hv : PrfsStore.Run .empty v.fs)
    (hc : PrfsStore.Run .empty c.fs) (dir : Node) (cookie : UInt64) (count perEntry : Nat) (req : List UInt32) :
    ((NfsV3.pageDir v dir cookie count perEntry).isSome →
      Progress (NfsV3.Gets dir count perEntry) (v, cookie) (v.pending dir cookie)
        (fun e => 128 + entrySize perEntry e.name ≤ count)) ∧
    ((c.readdirAt dir req count cookie).1 = .ok →
      Progress (c.Gets dir req count) (c.ckName, cookie) (c.pending dir cookie)
        (fun e => 96 + (NfsV4.encodeEntry c.fs req e.1 e.2).length + 8 ≤ count)) := by
  constructor
  · intro hok
    obtain ⟨r, hr⟩ := Option.isSome_iff_exists.mp hok
    exact (NfsV3.gets_fills dir count perEntry).progress (x := (v, cookie)) ⟨hv, NfsV3.resumes_of_some hr⟩
  · intro hok
    have hres : NfsV4.Call4.Resumes c dir cookie := NfsV4.Call4.resumes_of_ok (Prod.ext hok rfl)
    have hfits : (fun e => 100 + NfsV4.entryBytes c.fs req e ≤ count) =
        fun e => 96 + (NfsV4.encodeEntry c.fs req e.1 e.2).length + 8 ≤ count := by
      funext e
      rw [NfsV4.entryBytes, eq_iff_iff]
      omega
    have h := (NfsV4.Call4.gets_fills hc dir req count).progress (x := (c.ckName, cookie)) hres
    rwa [hfits] at h

/-- A directory of three names, in 4096 bytes. -/
theorem readdir_progress_iff_names :
    Progress (NfsV3.Gets ⟨1, LATEST⟩ 4096 0) ({ fs := PrfsStore.threeNames }, 0)
      (NfsV3.pending { fs := PrfsStore.threeNames } ⟨1, LATEST⟩ 0) (fun e => 128 + entrySize 0 e.name ≤ 4096) ∧
    Progress (NfsV4.Call4.Gets { v := {}, fs := PrfsStore.threeNames } ⟨1, LATEST⟩ [2] 4096) (.empty, 0)
      (NfsV4.Call4.pending { v := {}, fs := PrfsStore.threeNames } ⟨1, LATEST⟩ 0)
      (fun e => 96 + (NfsV4.encodeEntry PrfsStore.threeNames [2] e.1 e.2).length + 8 ≤ 4096) := by
  have hrun : PrfsStore.Run .empty PrfsStore.threeNames := PrfsStore.run_after (by decide)
  have h := readdir_progress_iff (v := { fs := PrfsStore.threeNames }) (c := { v := {}, fs := PrfsStore.threeNames })
    hrun hrun ⟨1, LATEST⟩ 0 4096 0 [2]
  exact ⟨h.1 (by decide), h.2 (by decide)⟩

/-- A count of 100 bytes has no room for "." behind the header: the reply is OK, with no entry and no end flag, and so
are all that follow it. A maxcount of 100 has none for "a". -/
theorem small_count_stalls :
    (NfsV3.listDir {} { fs := PrfsStore.threeNames } {} 1 LATEST 0 100 0 NfsV3.encodeEntry).2.1 =
      ((((NfsV3.encodePostOp {} PrfsStore.threeNames (({} : Writer).u32 Nfsstat3.ok.code) (some ⟨1, LATEST⟩)).u32 0).u32
        0).u32 0).u32 0 ∧
    (¬ ∃ es, Complete (NfsV3.Gets ⟨1, LATEST⟩ 100 0) ({ fs := PrfsStore.threeNames }, 0) es) ∧
    (NfsV4.Call4.readdirAt { v := {}, fs := PrfsStore.threeNames } ⟨1, LATEST⟩ [] 100 0).1 = .ok ∧
    (NfsV4.Call4.readdirAt { v := {}, fs := PrfsStore.threeNames } ⟨1, LATEST⟩ [] 100 0).2.w =
      NfsV4.listing PrfsStore.threeNames [] {} [] false := by
  have hrun : PrfsStore.Run .empty PrfsStore.threeNames := PrfsStore.run_after (by decide)
  refine ⟨by decide, ?_, by decide, by decide⟩
  rintro ⟨es, hes⟩
  have hres : NfsV3.Resumes { fs := PrfsStore.threeNames } ⟨1, LATEST⟩ 0 := fun h => absurd rfl h
  have hfit := (((NfsV3.gets_fills ⟨1, LATEST⟩ 100 0).complete_iff
    (x := ({ fs := PrfsStore.threeNames }, 0)) ⟨hrun, hres⟩).mp hes).2 ⟨dot, CK_DOT, ⟨1, LATEST⟩⟩ List.mem_cons_self
  exact absurd hfit (by decide)

end Prfs
