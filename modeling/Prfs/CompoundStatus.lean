import Prfs.Nfs4Run
import Prfs.OpInval

namespace Prfs

namespace NfsV4

/-- The operation comes to a check of its own that answers INVAL. -/
def Step4.Refused (m : Msg) (t : Step4) : Prop := ∃ o, Op4.ofCode t.op = some o ∧ t.before.RefusedInval m o

/-- A step that runs out of bytes is answered INVAL where a check of its own comes to that. -/
theorem Call4.execOp_inval_iff {h : Host} {hash : Bytes → UInt64} {p : WalkOrder} {m : Msg} {c : Call4}
    (hok : c.r.ok = true) (hcut : (execOp h hash p m c).after.r.ok = false) :
    (execOp h hash p m c).st = .inval ↔ (execOp h hash p m c).Refused m := by
  unfold Step4.Refused
  dsimp only [execOp, doOp] at hcut ⊢
  cases ho : Op4.ofCode (c.r.u32 m).1 with
  | none => simp
  | some o =>
    -- a number that is there has not run out of bytes
    have hr : (c.r.u32 m).2.ok = true := by
      unfold Reader.u32 at ho ⊢
      split at ho
      · simp [Op4.ofCode] at ho
      · next hle => simpa [hle, Reader.touch] using hok
    simp only [ho, Option.some.injEq, exists_eq_left'] at hcut ⊢
    refine Iff.trans ?_ (@refusedInval_w _ m (c.w.u32 (c.r.u32 m).1) o)
    exact runOp_inval_iff (by exact hr) (by exact hcut)

/-- The bytes of a reply: status, tag, and the counted array of results. -/
def encodeReply (st : UInt32) (tag : Bytes) (results : List Bytes) : Bytes :=
  (((({} : Writer).u32 st).str tag).u32 (UInt32.ofNat results.length)).v ++ results.flatten

/-- The status of a reply goes with its results. -/
structure Coherent (st : UInt32) (results : List Bytes) (nops : Nat) : Prop where
  last : word st = (results.getLast?.map statusWord).getD (word Nfsstat4.ok.code)
  earlier : ∀ x ∈ results.dropLast, statusWord x = word Nfsstat4.ok.code
  complete : results.length = nops ↔
    st = Nfsstat4.ok.code ∨ ∃ x, results[nops - 1]? = some x ∧ statusWord x ≠ word Nfsstat4.ok.code

theorem encodeReply_status {st st' : UInt32} {tag : Bytes} {xs : List Bytes}
    (he : encodeReply st tag xs = encodeReply st' tag xs) : st = st' := by
  have htake : ∀ x, (encodeReply x tag xs).take 4 = word x := by
    intro x
    simp [encodeReply, Writer.u32, Writer.str, Writer.bytes, Writer.pad, Writer.append, word]
  apply word_injective
  rw [← htake st, he, htake]

section Coherence

variable {h : Host} {hash : Bytes → UInt64} {pos : Nat → WalkOrder} {m : Msg} {left : Nat} {c : Call4} {t : Step4}

theorem trace_earlier {x : Bytes} (hx : x ∈ ((Call4.trace h hash pos m left 0 c).map Step4.result).dropLast) :
    statusWord x = word Nfsstat4.ok.code := by
  rw [← List.map_dropLast] at hx
  obtain ⟨t, ht, rfl⟩ := List.mem_map.mp hx
  rw [Call4.trace_status (List.dropLast_subset _ ht), (Call4.trace_dropLast ht).1]

theorem trace_complete (hl : (Call4.trace h hash pos m left 0 c).getLast? = some t)
    (hstop : t.st = .ok → (Call4.trace h hash pos m left 0 c).length = left) :
    ((Call4.trace h hash pos m left 0 c).map Step4.result).length = left ↔
      t.st.code = Nfsstat4.ok.code ∨ ∃ x, ((Call4.trace h hash pos m left 0 c).map Step4.result)[left - 1]? = some x ∧
        statusWord x ≠ word Nfsstat4.ok.code := by
  have hmem := List.mem_of_getLast? hl
  have hpos := List.length_pos_of_mem hmem
  have hle := @Call4.trace_length_le h hash pos m left 0 c
  rw [List.length_map, Nfsstat4.code_ok]
  constructor
  · intro hlen
    by_cases hst : t.st = .ok
    · exact .inl hst
    · refine .inr ⟨t.result, ?_, ?_⟩
      · have hg : (Call4.trace h hash pos m left 0 c)[left - 1]? = some t := by
          rw [← hl, List.getLast?_eq_getElem?, hlen]
        rw [List.getElem?_map, hg, Option.map_some]
      · rw [Call4.trace_status hmem]
        exact fun he => hst (Nfsstat4.code_ok.mp (word_injective he))
  · rintro (hst | ⟨x, hx, -⟩)
    · exact hstop hst
    · have hlt := (List.getElem?_eq_some_iff.mp hx).1
      rw [List.length_map] at hlt
      omega

/-- The status that goes out is that of the last operation, unless the message has run out. -/
theorem trace_coherent_iff (hok : c.r.ok = true) :
    Coherent
        (if (((Call4.trace h hash pos m left 0 c).getLast?.map Step4.after).getD c).r.ok = false then Nfsstat4.inval
          else ((Call4.trace h hash pos m left 0 c).getLast?.map Step4.st).getD .ok).code
        ((Call4.trace h hash pos m left 0 c).map Step4.result) left ↔
      ∀ t ∈ Call4.trace h hash pos m left 0 c, t.after.r.ok = false → t.Refused m := by
  have hstops := @Call4.trace_stops h hash pos m left 0 c hok
  cases hl : (Call4.trace h hash pos m left 0 c).getLast? with
  | none =>
    have hnil := List.getLast?_eq_none_iff.mp hl
    have hzero : left = 0 := by
      by_contra hne
      obtain ⟨t, ht, -⟩ := hstops (by rw [hnil]; exact Nat.pos_of_ne_zero hne)
      simp [hl] at ht
    simp only [hnil, Option.map_none, Option.getD_none, hok, List.map_nil]
    refine iff_of_true ⟨rfl, by simp, by simp [hzero]⟩ (by simp)
  | some t =>
    have hmem := List.mem_of_getLast? hl
    -- an operation that runs out of bytes is the last one
    have hcut : ∀ t' ∈ Call4.trace h hash pos m left 0 c, t'.after.r.ok = false → t' = t := by
      intro t' ht' hcut'
      rw [← List.dropLast_append_getLast? t hl, List.mem_append, List.mem_singleton] at ht'
      rcases ht' with ht' | rfl
      · simp [(Call4.trace_dropLast ht').2] at hcut'
      · rfl
    have hlast : (((Call4.trace h hash pos m left 0 c).map Step4.result).getLast?.map statusWord).getD
        (word Nfsstat4.ok.code) = word t.st.code := by
      rw [List.getLast?_map, hl]
      exact Call4.trace_status hmem
    simp only [Option.map_some, Option.getD_some]
    by_cases hend : t.after.r.ok = false
    · rw [if_pos hend]
      have hinval : t.st = .inval ↔ t.Refused m :=
        Call4.forall_trace (P := fun t => t.after.r.ok = false → (t.st = .inval ↔ t.Refused m))
          (fun p c hok hcut => Call4.execOp_inval_iff hok hcut) hmem hend
      constructor
      · intro hco t' ht' hcut'
        rw [hcut t' ht' hcut', ← hinval]
        have hw := word_injective (hco.last.trans hlast)
        revert hw
        cases t.st <;> decide
      · intro hall
        have hst := hinval.mpr (hall t hmem hend)
        refine ⟨by rw [hlast, hst], fun x hx => trace_earlier hx, ?_⟩
        have hcomp := trace_complete hl (fun h => by simp [hst] at h)
        rwa [hst] at hcomp
    · rw [if_neg hend]
      refine iff_of_true ⟨hlast.symm, fun x hx => trace_earlier hx, trace_complete hl fun hst => ?_⟩ ?_
      · by_contra hne
        obtain ⟨t', ht', hbad⟩ := hstops (lt_of_le_of_ne Call4.trace_length_le hne)
        rw [hl] at ht'
        cases ht'
        exact hbad.elim (fun h => h hst) hend
      · intro t' ht' hcut'
        rw [hcut t' ht' hcut'] at hcut'
        exact absurd hcut' hend

end Coherence

section Reply

variable {h : Host} {hash : Bytes → UInt64} {pos : Nat → WalkOrder} {m : Msg} {s : Server4} {r r' : Reader}
  {nops : UInt32} {tag : Bytes}

theorem compound_no_header (hrc : readCompound m r = (nops, tag, r')) (hok : r'.ok = false) :
    executed h hash pos m s r = [] ∧
      (compound h hash pos m s r).1.v = encodeReply Nfsstat4.resource.code tag [] := by
  constructor
  · rw [executed, hrc]
    simp [hok]
  · rw [compound, hrc]
    simp [hok, encodeReply]

theorem compound_reply (hrc : readCompound m r = (nops, tag, r')) (hok : r'.ok = true) (hn : ¬ 4096 < nops) :
    ∃ c : Call4, c.r = r' ∧ executed h hash pos m s r = Call4.trace h hash pos m nops.toNat 0 c ∧
      (compound h hash pos m s r).1.v =
        encodeReply
          (if (((Call4.trace h hash pos m nops.toNat 0 c).getLast?.map Step4.after).getD c).r.ok = false then
              Nfsstat4.inval
            else ((Call4.trace h hash pos m nops.toNat 0 c).getLast?.map Step4.st).getD .ok).code
          tag ((Call4.trace h hash pos m nops.toNat 0 c).map Step4.result) := by
  refine ⟨{ v := s.v, fs := s.fs, ckName := s.ckName, r := r' }, rfl, ?_, ?_⟩
  · rw [executed, hrc]
    simp [hok, hn]
  · rw [compound, hrc]
    generalize hc : ({ v := s.v, fs := s.fs, ckName := s.ckName, r := r' } : Call4) = c
    have hw : c.w.v = [] := by rw [← hc]
    have hres := @Call4.trace_results h hash pos m nops.toNat 0 c
    rw [hw, List.nil_append] at hres
    simp only [hok, hn, hc, Bool.not_true, Bool.false_or, decide_false, Bool.false_eq_true, ite_false,
      Call4.opsLoop_eq_trace, Bool.not_eq_true', Nat.zero_add, encodeReply, List.length_map, Writer.append, hres]

end Reply

/-- The reply to a COMPOUND goes with its results exactly when its header is there and each operation
that runs out of bytes is refused with INVAL by a check of its own. -/
theorem compound_coherent_iff (h : Host) (hash : Bytes → UInt64) (pos : Nat → WalkOrder) (m : Msg) (s : Server4)
    (r : Reader) (hn : (readCompound m r).1 ≤ 4096) :
    (∃ st, (compound h hash pos m s r).1.v =
        encodeReply st (readCompound m r).2.1 ((executed h hash pos m s r).map Step4.result) ∧
      Coherent st ((executed h hash pos m s r).map Step4.result) (readCompound m r).1.toNat) ↔
    (readCompound m r).2.2.ok = true ∧
      ∀ t ∈ executed h hash pos m s r, t.after.r.ok = false → t.Refused m := by
  rcases hrc : readCompound m r with ⟨nops, tag, r'⟩
  rw [hrc] at hn
  dsimp only
  cases hok : r'.ok with
  | false =>
    obtain ⟨hex, hrep⟩ := @compound_no_header h hash pos m s r r' nops tag hrc hok
    simp only [hex, hrep, List.map_nil, Bool.false_eq_true, false_and, iff_false]
    rintro ⟨st, he, hco⟩
    have hw := word_injective hco.last
    rw [← encodeReply_status he] at hw
    simp [Nfsstat4.code] at hw
  | true =>
    obtain ⟨c, hc, hex, hrep⟩ := @compound_reply h hash pos m s r r' nops tag hrc hok (UInt32.not_lt.mpr hn)
    rw [hex, hrep, ← trace_coherent_iff (hc ▸ hok)]
    simp only [true_and]
    constructor
    · rintro ⟨st, he, hco⟩
      rwa [encodeReply_status he]
    · exact fun hco => ⟨_, rfl, hco⟩

/-- The header of a call without credentials, and the head of a COMPOUND of one operation. -/
def oneOpHeader (op : UInt32) : Writer :=
  let rpc := (((((({} : Writer).u32 7).u32 RPC_CALL).u32 2).u32 PROG_NFS).u32 NFS_V4).u32 1
  ((((((rpc.u32 0).u32 0).u32 0).u32 0).u32 0).u32 0).u32 1 |>.u32 op

/-- A COMPOUND of one PUTROOTFH. -/
def putrootfhOnly : Msg := ⟨(oneOpHeader 24).v, fun _ => 0, by decide⟩

theorem compound_coherent_iff_putrootfh :
    ∃ st, (compound {} (fun _ => 0) (fun _ _ => 0) putrootfhOnly { fs := PrfsStore.empty } { pos := 40 }).1.v =
        encodeReply st [] ((executed {} (fun _ => 0) (fun _ _ => 0) putrootfhOnly { fs := PrfsStore.empty }
          { pos := 40 }).map Step4.result) ∧
      Coherent st ((executed {} (fun _ => 0) (fun _ _ => 0) putrootfhOnly { fs := PrfsStore.empty }
        { pos := 40 }).map Step4.result) 1 := by
  refine (compound_coherent_iff {} (fun _ => 0) (fun _ _ => 0) putrootfhOnly { fs := PrfsStore.empty } { pos := 40 }
    (by decide)).mpr ⟨by decide, ?_⟩
  have hall : (executed {} (fun _ => 0) (fun _ _ => 0) putrootfhOnly { fs := PrfsStore.empty } { pos := 40 }).all
      (fun t => t.after.r.ok) = true := by decide
  intro t ht hcut
  have := List.all_eq_true.mp hall t ht
  simp [hcut] at this

/-- A COMPOUND of one COMMIT that ends behind its number. -/
def commitCut : Msg := ⟨(oneOpHeader 5).v, fun _ => 0, by decide⟩

/-- The COMMIT is answered OK and the COMPOUND with INVAL. -/
theorem commit_cut_incoherent :
    (readCompound commitCut { pos := 40 }).1 = 1 ∧
    (compound {} (fun _ => 0) (fun _ _ => 0) commitCut { fs := PrfsStore.empty } { pos := 40 }).1.v =
      encodeReply Nfsstat4.inval.code [] [word 5 ++ word Nfsstat4.ok.code ++ List.replicate 8 0] ∧
    ¬ ∃ st, (compound {} (fun _ => 0) (fun _ _ => 0) commitCut { fs := PrfsStore.empty } { pos := 40 }).1.v =
        encodeReply st [] ((executed {} (fun _ => 0) (fun _ _ => 0) commitCut { fs := PrfsStore.empty }
          { pos := 40 }).map Step4.result) ∧
      Coherent st ((executed {} (fun _ => 0) (fun _ _ => 0) commitCut { fs := PrfsStore.empty }
        { pos := 40 }).map Step4.result) 1 := by
  have hrep : (compound {} (fun _ => 0) (fun _ _ => 0) commitCut { fs := PrfsStore.empty } { pos := 40 }).1.v =
      encodeReply Nfsstat4.inval.code [] [word 5 ++ word Nfsstat4.ok.code ++ List.replicate 8 0] := by decide
  have hres : (executed {} (fun _ => 0) (fun _ _ => 0) commitCut { fs := PrfsStore.empty }
      { pos := 40 }).map Step4.result = [word 5 ++ word Nfsstat4.ok.code ++ List.replicate 8 0] := by decide
  refine ⟨by decide, hrep, ?_⟩
  rintro ⟨st, he, hco⟩
  rw [hrep, hres] at he
  rw [← encodeReply_status he, hres] at hco
  exact absurd (word_injective hco.last) (by decide)

end NfsV4

end Prfs
