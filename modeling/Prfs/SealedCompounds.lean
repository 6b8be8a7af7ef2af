import Prfs.SealedRecords
import Prfs.SerialCompounds

namespace Prfs

namespace NfsV4

namespace Call4

/-- Two calls at the same place of a message, one over the store `s` and one over `t`: the same handles, the same bytes ahead
and the same bytes written. -/
structure Abreast (s t : PrfsStore) (c c' : Call4) : Prop where
  fs : c.fs = s
  fs' : c'.fs = t
  cfh : c'.cfh = c.cfh
  sfh : c'.sfh = c.sfh
  r : c'.r = c.r
  w : c'.w = c.w

/-- The same status, and two calls at the same place. -/
def Alike (s t : PrfsStore) (x x' : Out4) : Prop := x'.1 = x.1 ∧ Abreast s t x.2 x'.2

/-- The operation reads what is fixed: sealed views, the way to them, and the handles themselves. -/
def ReadsSealed (m : Msg) (c : Call4) : Op4 → Prop
  | .putrootfh | .putpubfh | .putfh | .savefh | .restorefh | .getfh | .commit => True
  | .access => ∀ n, c.cfh = some n → c.fs.Lasting n
  | .lookup => ∀ n, c.cfh = some n → c.fs.FixedName n (c.r.str m).1
  | .lookupp | .getattr | .readlink | .readdir => ∀ n, c.cfh = some n → c.fs.SealedNode n
  | .read => (readStateid m c.r).1.special = true ∧ ∀ n, c.cfh = some n → c.fs.SealedNode n
  | _ => False

instance ReadsSealed.decidable (m : Msg) (c : Call4) : (o : Op4) → Decidable (ReadsSealed m c o)
  | .putrootfh | .putpubfh | .putfh | .savefh | .restorefh | .getfh | .commit => isTrue trivial
  | .access => inferInstanceAs (Decidable (∀ n, c.cfh = some n → c.fs.Lasting n))
  | .lookup => inferInstanceAs (Decidable (∀ n, c.cfh = some n → c.fs.FixedName n (c.r.str m).1))
  | .lookupp | .getattr | .readlink | .readdir => inferInstanceAs (Decidable (∀ n, c.cfh = some n → c.fs.SealedNode n))
  | .read => inferInstanceAs (Decidable (_ ∧ ∀ n, c.cfh = some n → c.fs.SealedNode n))
  | .close | .create | .link | .lock | .lockt | .locku | .openFile | .openConfirm | .openDowngrade | .remove | .rename | .renew
  | .setattr | .setclientid | .setclientidConfirm | .write | .releaseLockowner => isFalse id

/-- The cookie that a READDIR resumes from is known to both caches, or to neither. -/
def SameCookie (m : Msg) (c c' : Call4) : Prop :=
  let cookie := (c.r.u64 m).1
  cookie ≠ 0 → c'.ckName.get cookie = c.ckName.get cookie

section Exits

variable {s t : PrfsStore} {c c' : Call4}

theorem Abreast.exit (h : Abreast s t c c') (st : Nfsstat4) : Alike s t (c.exit st) (c'.exit st) :=
  ⟨rfl, h.fs, h.fs', h.cfh, h.sfh, h.r, congrArg (Writer.u32 · st.code) h.w⟩

theorem Abreast.exitWith (h : Abreast s t c c') (st : Nfsstat4) {body body' : Writer → Writer} (hb : ∀ w, body' w = body w) :
    Alike s t (c.exitWith st body) (c'.exitWith st body') := by
  refine ⟨rfl, h.fs, h.fs', h.cfh, h.sfh, h.r, ?_⟩
  show body' (c'.w.u32 st.code) = body (c.w.u32 st.code)
  rw [hb, h.w]

theorem Abreast.cur (h : Abreast s t c c') (hs : s.Sound) (hr : PrfsStore.Run s t)
    (hn : ∀ n, c.cfh = some n → s.Lasting n) : c'.cur = c.cur := by
  unfold Call4.cur
  rw [h.cfh, h.fs, h.fs']
  cases hc : c.cfh with
  | none => rfl
  | some n => exact hs.lasting_nodeById hr (hn n hc)

/-- The current node is the current handle, and as fixed as that. -/
theorem cur_of {P : Node → Prop} (hn : ∀ n, c.cfh = some n → P n) {n : Node} (hc : c.cur = some n) : P n := by
  obtain ⟨x, hx, hnode⟩ := Option.bind_eq_some_iff.mp hc
  obtain rfl := PrfsStore.nodeById_eq hnode
  exact hn _ hx

end Exits

section Ops

variable {s t : PrfsStore} {c c' : Call4} {m : Msg}

theorem opPutrootfh_alike (h : Abreast s t c c') (hroot : t.root = s.root) :
    Alike s t c.opPutrootfh c'.opPutrootfh := by
  have hnode : some (⟨c'.fs.rwRoot.id, LATEST⟩ : Node) = some ⟨c.fs.rwRoot.id, LATEST⟩ := by
    unfold PrfsStore.rwRoot
    rw [h.fs, h.fs', hroot]
  refine Abreast.exit ?_ _
  exact ⟨h.fs, h.fs', hnode, h.sfh, h.r, h.w⟩

theorem opPutfh_alike (h : Abreast s t c c') : Alike s t (c.opPutfh m) (c'.opPutfh m) := by
  unfold opPutfh
  rw [h.r]
  split
  · refine Abreast.exit ?_ _
    exact ⟨h.fs, h.fs', h.cfh, h.sfh, rfl, h.w⟩
  · refine Abreast.exit ?_ _
    exact ⟨h.fs, h.fs', rfl, h.sfh, rfl, h.w⟩

theorem opSavefh_alike (h : Abreast s t c c') : Alike s t c.opSavefh c'.opSavefh := by
  unfold opSavefh
  rw [h.cfh]
  cases hc : c.cfh with
  | none => exact h.exit _
  | some n =>
    refine Abreast.exit ?_ _
    exact ⟨h.fs, h.fs', rfl, rfl, h.r, h.w⟩

theorem opRestorefh_alike (h : Abreast s t c c') : Alike s t c.opRestorefh c'.opRestorefh := by
  unfold opRestorefh
  rw [h.sfh]
  cases hc : c.sfh with
  | none => exact h.exit _
  | some n =>
    refine Abreast.exit ?_ _
    exact ⟨h.fs, h.fs', rfl, rfl, h.r, h.w⟩

theorem opGetfh_alike (h : Abreast s t c c') : Alike s t c.opGetfh c'.opGetfh := by
  unfold opGetfh
  rw [h.cfh]
  cases hc : c.cfh with
  | none => exact h.exit _
  | some n => exact h.exitWith _ fun _ => rfl

/-- Both find the same directory, and under it the same target. -/
theorem lookupIn_alike (h : Abreast s t c c') (hcur : c'.cur = c.cur) {step step' : Node → Option Node}
    (hfound : ∀ n, c.cur = some n → (c'.fs.attrs n).type = (c.fs.attrs n).type ∧ step' n = step n) :
    Alike s t (c.lookupIn step) (c'.lookupIn step') := by
  unfold lookupIn enter
  rw [hcur]
  cases hc : c.cur with
  | none => exact h.exit _
  | some n =>
    obtain ⟨htype, hstep⟩ := hfound n hc
    dsimp only
    rw [htype, hstep]
    split_ifs
    · exact h.exit _
    · cases step n with
      | none => exact h.exit _
      | some x =>
        refine Abreast.exit ?_ _
        exact ⟨h.fs, h.fs', rfl, h.sfh, h.r, h.w⟩

theorem encodeFattr4_alike {n : Node} (hattrs : t.attrs n = s.attrs n) (w : Writer) (req : List UInt32) (id snap : UInt64) :
    encodeFattr4 t w req n id snap = encodeFattr4 s w req n id snap := by
  have hval : (fun vw a => encodeAttrValue t vw n id snap a) = fun vw a => encodeAttrValue s vw n id snap a := by
    funext vw a
    cases a <;> simp only [encodeAttrValue, hattrs]
  unfold encodeFattr4
  dsimp only
  rw [hval]

theorem opLookup_alike (h : Abreast s t c c') (hs : s.Sound) (hr : PrfsStore.Run s t) (hread : ReadsSealed m c .lookup) :
    Alike s t (c.opLookup m) (c'.opLookup m) := by
  have hname : ∀ n, c.cfh = some n → s.FixedName n (c.r.str m).1 := by
    rw [← h.fs]
    exact hread
  have hcur := h.cur hs hr fun n hn => (hname n hn).lasting
  unfold opLookup
  rw [h.r]
  dsimp only
  refine lookupIn_alike ?_ ?_ fun n hn => ?_
  · exact ⟨h.fs, h.fs', h.cfh, h.sfh, rfl, h.w⟩
  · exact hcur
  dsimp only
  rw [h.fs, h.fs', hs.fixedName_lookup hr (cur_of hname hn)]
  have hnode : c.fs.nodeById n.id n.snap = some n := by
    obtain ⟨x, -, hx⟩ := Option.bind_eq_some_iff.mp hn
    obtain rfl := PrfsStore.nodeById_eq hx
    exact hx
  rw [h.fs] at hnode
  exact ⟨hs.type_run hr hnode, rfl⟩

/-- The handle, where there is one, is a sealed one. -/
theorem sealed_cur (h : Abreast s t c c') (hs : s.Sound) (hr : PrfsStore.Run s t)
    (hread : ∀ n, c.cfh = some n → c.fs.SealedNode n) :
    c'.cur = c.cur ∧ ∀ n, c.cur = some n → c.fs.SealedNode n ∧ c'.fs.attrs n = c.fs.attrs n := by
  refine ⟨h.cur hs hr fun n hn => .inl (h.fs ▸ hread n hn), fun n hn => ?_⟩
  have hsealed := cur_of hread hn
  refine ⟨hsealed, ?_⟩
  rw [h.fs] at hsealed
  rw [h.fs, h.fs']
  exact (hs.sameSealed hr).attrs hsealed

theorem opLookupp_alike (h : Abreast s t c c') (hs : s.Sound) (hr : PrfsStore.Run s t) (hread : ReadsSealed m c .lookupp) :
    Alike s t c.opLookupp c'.opLookupp := by
  obtain ⟨hcur, hn⟩ := sealed_cur h hs hr hread
  refine lookupIn_alike h hcur fun n hc => ?_
  obtain ⟨hsealed, hattrs⟩ := hn n hc
  refine ⟨congrArg Attrs.type hattrs, ?_⟩
  rw [h.fs] at hsealed
  rw [h.fs, h.fs']
  exact congrArg some ((hs.sameSealed hr).firstParent hsealed).1

theorem opAccess_alike (h : Abreast s t c c') (hs : s.Sound) (hr : PrfsStore.Run s t) (hread : ReadsSealed m c .access) :
    Alike s t (c.opAccess m) (c'.opAccess m) := by
  have hcur := h.cur hs hr (h.fs ▸ hread)
  have hr' : Abreast s t { c with r := (c.r.u32 m).2 } { c' with r := (c.r.u32 m).2 } :=
    ⟨h.fs, h.fs', h.cfh, h.sfh, rfl, h.w⟩
  unfold opAccess
  rw [h.r]
  dsimp only
  rw [@cur_r c, @cur_r c', hcur]
  cases c.cur with
  | none => exact hr'.exit _
  | some n => exact hr'.exitWith _ fun _ => rfl

theorem opGetattr_alike (h : Abreast s t c c') (hs : s.Sound) (hr : PrfsStore.Run s t) (hread : ReadsSealed m c .getattr) :
    Alike s t (c.opGetattr m) (c'.opGetattr m) := by
  obtain ⟨hcur, hn⟩ := sealed_cur h hs hr hread
  have hr' : Abreast s t { c with r := (c.r.bitmap m).2 } { c' with r := (c.r.bitmap m).2 } :=
    ⟨h.fs, h.fs', h.cfh, h.sfh, rfl, h.w⟩
  unfold opGetattr
  rw [h.r]
  dsimp only
  rw [@cur_r c, @cur_r c', hcur]
  cases hc : c.cur with
  | none => exact hr'.exit _
  | some n => exact hr'.exitWith _ fun w => encodeFattr4_alike (hn n hc).2 w _ _ _

theorem opReadlink_alike (h : Abreast s t c c') (hs : s.Sound) (hr : PrfsStore.Run s t) (hread : ReadsSealed m c .readlink) :
    Alike s t c.opReadlink c'.opReadlink := by
  obtain ⟨hcur, hn⟩ := sealed_cur h hs hr hread
  unfold opReadlink
  rw [hcur]
  cases hc : c.cur with
  | none => exact h.exit _
  | some n =>
    dsimp only
    rw [(hn n hc).2]
    split_ifs
    · exact h.exit _
    · exact h.exitWith _ fun _ => rfl

theorem refuses_special {v v' : NfsV4} {sid : Stateid} (hsid : sid.special = true) {fileId : UInt64} {bit : UInt32} :
    refuses v' sid fileId bit = refuses v sid fileId bit := by
  unfold refuses checkStateid
  rw [if_pos hsid, if_pos hsid]

theorem opRead_alike {host : Host} (h : Abreast s t c c') (hs : s.Sound) (hr : PrfsStore.Run s t)
    (hcfg : t.contentConfig = s.contentConfig) (hread : ReadsSealed m c .read) :
    Alike s t (c.opRead host m) (c'.opRead host m) := by
  obtain ⟨hsid, hread⟩ := hread
  obtain ⟨hcur, hn⟩ := sealed_cur h hs hr hread
  unfold opRead
  rw [h.r]
  dsimp only
  generalize (readStateid m c.r).1 = sid at *
  generalize (((readStateid m c.r).2.u64 m).2.u32 m).2 = r
  generalize (((readStateid m c.r).2.u64 m).2.u32 m).1 = cnt
  generalize ((readStateid m c.r).2.u64 m).1 = off
  generalize (if MAX_IO < cnt then MAX_IO else cnt) = len
  have hr' : Abreast s t { c with r } { c' with r } := ⟨h.fs, h.fs', h.cfh, h.sfh, rfl, h.w⟩
  rw [@cur_r c, @cur_r c', hcur]
  cases hc : c.cur with
  | none => exact hr'.exit _
  | some n =>
    obtain ⟨hsealed, hattrs⟩ := hn n hc
    have hbuf : host.read c'.fs n off len.toNat = host.read c.fs n off len.toNat := by
      rw [h.fs] at hsealed
      rw [h.fs, h.fs']
      exact (hs.sameSealed hr).read hcfg hsealed off len.toNat
    dsimp only
    rw [hattrs, @refuses_special c.v c'.v sid hsid, hbuf]
    by_cases hdir : (c.fs.attrs n).type = .DIR
    · rw [if_pos hdir, if_pos hdir]
      exact hr'.exit _
    · rw [if_neg hdir, if_neg hdir]
      cases refuses c.v sid n.id ACCESS_READ with
      | some st => exact hr'.exit _
      | none => exact hr'.exitWith _ fun _ => rfl

theorem opCommit_alike (h : Abreast s t c c') : Alike s t (c.opCommit m) (c'.opCommit m) := by
  unfold opCommit
  rw [h.r]
  refine Abreast.exitWith ?_ _ fun _ => rfl
  exact ⟨h.fs, h.fs', h.cfh, h.sfh, rfl, h.w⟩

end Ops

section Listings

variable {s t : PrfsStore} {c c' : Call4} {m : Msg} {req : List UInt32} {mx : Nat} {l l' : Listing}

/-- Two listings of the same entries so far. -/
def ListedAlike (l l' : Listing) : Prop := l'.budget = l.budget ∧ l'.w = l.w

theorem listEntries_alike {es : List (Bytes × Node)} (hes : ∀ e ∈ es, t.attrs e.2 = s.attrs e.2) (hl : ListedAlike l l') :
    (listEntries t req mx es l').1 = (listEntries s req mx es l).1 ∧
      ListedAlike (listEntries s req mx es l).2 (listEntries t req mx es l').2 := by
  induction es generalizing l l' with
  | nil => exact ⟨rfl, hl⟩
  | cons e es ih =>
    obtain ⟨name, node⟩ := e
    have hone : encodeEntry t req name node = encodeEntry s req name node := by
      unfold encodeEntry
      rw [encodeFattr4_alike (hes _ List.mem_cons_self)]
    rw [listEntries, listEntries, hone, hl.1]
    split_ifs
    · exact ⟨rfl, hl⟩
    · refine ih (fun e he => hes e (List.mem_cons_of_mem _ he)) ⟨rfl, ?_⟩
      dsimp only
      rw [hl.2]

theorem listPages_alike (hsame : PrfsStore.SameSealed s t) {dir : Node} (hn : s.SealedNode dir) (fuel : Nat) (after : Bytes)
    (hl : ListedAlike l l') :
    (listPages t dir req mx fuel after l').1 = (listPages s dir req mx fuel after l).1 ∧
      ListedAlike (listPages s dir req mx fuel after l).2 (listPages t dir req mx fuel after l').2 := by
  induction fuel generalizing after l l' with
  | zero => exact ⟨rfl, hl⟩
  | succ fuel ih =>
    rw [listPages, listPages, hsame.page hn]
    obtain ⟨hall, hents⟩ := @listEntries_alike s t req mx l l' (s.readdirPage dir after 512).entries
      (fun e he => hsame.attrs (hsame.listed hn he)) hl
    rcases he : listEntries s req mx (s.readdirPage dir after 512).entries l with ⟨all, x⟩
    rcases he' : listEntries t req mx (s.readdirPage dir after 512).entries l' with ⟨all', x'⟩
    rw [he, he'] at hall hents
    obtain rfl : all' = all := hall
    cases all' with
    | false => exact ⟨rfl, hents⟩
    | true =>
      dsimp only
      split_ifs
      · exact ⟨rfl, hents⟩
      · exact ih _ hents

theorem listFrom_alike (h : Abreast s t c c') (hsame : PrfsStore.SameSealed s t) {dir : Node} (hn : s.SealedNode dir)
    (after : Bytes) : Alike s t (c.listFrom dir req mx after) (c'.listFrom dir req mx after) := by
  obtain rfl := h.fs
  obtain rfl := h.fs'
  obtain ⟨heof, hl⟩ := @listPages_alike c.fs c'.fs req mx { w := zeros8 (c.w.u32 Nfsstat4.ok.code), ckName := c.ckName }
    { w := zeros8 (c.w.u32 Nfsstat4.ok.code), ckName := c'.ckName } hsame dir hn (pageFuel c.fs dir) after ⟨rfl, rfl⟩
  unfold listFrom
  rw [hsame.pageFuel hn, h.w]
  refine ⟨rfl, rfl, rfl, h.cfh, h.sfh, h.r, ?_⟩
  dsimp only
  rw [heof, hl.2]

theorem opReaddir_alike (h : Abreast s t c c') (hs : s.Sound) (hr : PrfsStore.Run s t) (hread : ReadsSealed m c .readdir)
    (hck : SameCookie m c c') : Alike s t (c.opReaddir m) (c'.opReaddir m) := by
  obtain ⟨hcur, hn⟩ := sealed_cur h hs hr hread
  unfold SameCookie at hck
  unfold opReaddir
  rw [h.r]
  dsimp only at hck ⊢
  generalize (c.r.u64 m).1 = cookie at *
  generalize (((c.r.u64 m).2.skip m 8).u32 m).2 = r1
  generalize (r1.u32 m).1 = maxcount
  generalize ((r1.u32 m).2.bitmap m).1 = req
  generalize ((r1.u32 m).2.bitmap m).2 = r
  have hr' : Abreast s t { c with r } { c' with r } := ⟨h.fs, h.fs', h.cfh, h.sfh, rfl, h.w⟩
  rw [@cur_r c, @cur_r c', hcur]
  cases hc : c.cur with
  | none => exact hr'.exit _
  | some dir =>
    obtain ⟨hsealed, hattrs⟩ := hn dir hc
    rw [h.fs] at hsealed
    dsimp only
    rw [hattrs]
    by_cases hdir : (c.fs.attrs dir).type ≠ .DIR
    · rw [if_pos hdir, if_pos hdir]
      exact hr'.exit _
    rw [if_neg hdir, if_neg hdir]
    by_cases hzero : cookie = 0
    · rw [if_pos hzero, if_pos hzero]
      exact listFrom_alike hr' (hs.sameSealed hr) hsealed _
    · have hresume : resumeName c'.ckName c'.fs dir cookie = resumeName c.ckName c.fs dir cookie := by
        rw [h.fs, h.fs']
        exact (hs.sameSealed hr).resumeName hsealed (hck hzero)
      rw [if_neg hzero, if_neg hzero, hresume]
      cases resumeName c.ckName c.fs dir cookie with
      | none => exact hr'.exit _
      | some after => exact listFrom_alike hr' (hs.sameSealed hr) hsealed _

end Listings

section Calls

variable {s t : PrfsStore} {c c' : Call4} {m : Msg} {host : Host} {hash : Bytes → UInt64} {pos : WalkOrder}

theorem runOp_alike {isLive : UInt64 → Bool} (h : Abreast s t c c') (hs : s.Sound) (hr : PrfsStore.Run s t)
    (hcfg : t.contentConfig = s.contentConfig) {o : Op4} (hread : ReadsSealed m c o)
    (hck : o = .readdir → SameCookie m c c') :
    Alike s t (c.runOp isLive hash pos m host o) (c'.runOp isLive hash pos m host o) := by
  have hroot : t.root = s.root := (hs.run hr).root.trans hs.root.symm
  cases o with
  | putrootfh => exact opPutrootfh_alike h hroot
  | putpubfh => exact opPutrootfh_alike h hroot
  | putfh => exact opPutfh_alike h
  | savefh => exact opSavefh_alike h
  | restorefh => exact opRestorefh_alike h
  | getfh => exact opGetfh_alike h
  | commit => exact opCommit_alike h
  | access => exact opAccess_alike h hs hr hread
  | lookup => exact opLookup_alike h hs hr hread
  | lookupp => exact opLookupp_alike h hs hr hread
  | getattr => exact opGetattr_alike h hs hr hread
  | readlink =>
    rw [runOp, runOp]
    exact opReadlink_alike h hs hr hread
  | read =>
    rw [runOp, runOp]
    exact opRead_alike h hs hr hcfg hread
  | readdir =>
    rw [runOp, runOp]
    exact opReaddir_alike h hs hr hread (hck rfl)
  | _ => exact absurd hread id

/-- The step reads what is fixed, or its number is not one that is served. -/
def SealedStep (m : Msg) (x : Step4) : Prop := ∀ o, Op4.ofCode x.op = some o → ReadsSealed m x.before o

instance (m : Msg) (x : Step4) : Decidable (SealedStep m x) := decidableForallSome _ _

/-- Where both steps are the same READDIR, its cookie is known to both caches or to neither. -/
def SameCaches (m : Msg) (x x' : Step4) : Prop := Op4.ofCode x.op = some .readdir → SameCookie m x.before x'.before

theorem readsSealed_w {w : Writer} {o : Op4} : ReadsSealed m { c with w } o ↔ ReadsSealed m c o := by cases o <;> exact Iff.rfl

theorem execOp_alike (h : Abreast s t c c') (hs : s.Sound) (hr : PrfsStore.Run s t)
    (hcfg : t.contentConfig = s.contentConfig) (hread : SealedStep m (execOp host hash pos m c))
    (hck : SameCaches m (execOp host hash pos m c) (execOp host hash pos m c')) :
    (execOp host hash pos m c').st = (execOp host hash pos m c).st ∧
      Abreast s t (execOp host hash pos m c).after (execOp host hash pos m c').after := by
  unfold execOp at hread hck ⊢
  rw [h.r] at hck ⊢
  dsimp only at hread hck ⊢
  have hr' : Abreast s t { c with r := (c.r.u32 m).2 } { c' with r := (c.r.u32 m).2 } :=
    ⟨h.fs, h.fs', h.cfh, h.sfh, rfl, h.w⟩
  generalize (c.r.u32 m).1 = op at *
  generalize (c.r.u32 m).2 = r at *
  have hw : Abreast s t { c with r, w := c.w.u32 op } { c' with r, w := c'.w.u32 op } :=
    ⟨h.fs, h.fs', h.cfh, h.sfh, rfl, congrArg (Writer.u32 · op) h.w⟩
  unfold doOp
  dsimp only
  cases ho : Op4.ofCode op with
  | none => exact hw.exit _
  | some o => exact runOp_alike hw hs hr hcfg ((@readsSealed_w { c with r } m _ o).mpr (hread o ho)) fun hdir => hck (hdir ▸ ho)

/-- As long as its steps read what is fixed, the loop ends alike over both stores. -/
theorem opsLoop_alike {pos : Nat → WalkOrder} (hs : s.Sound) (hr : PrfsStore.Run s t) (hcfg : t.contentConfig = s.contentConfig)
    {left done : Nat} {last : Nfsstat4} (h : Abreast s t c c')
    (hread : ∀ x ∈ trace host hash pos m left done c, SealedStep m x)
    (hck : ∀ (i : Nat) x x', (trace host hash pos m left done c)[i]? = some x → (trace host hash pos m left done c')[i]? = some x' →
      SameCaches m x x') :
    (opsLoop host hash pos m left done last c').1 = (opsLoop host hash pos m left done last c).1 ∧
      (opsLoop host hash pos m left done last c').2.1 = (opsLoop host hash pos m left done last c).2.1 ∧
      Abreast s t (opsLoop host hash pos m left done last c).2.2 (opsLoop host hash pos m left done last c').2.2 := by
  induction left generalizing done last c c' with
  | zero => exact ⟨rfl, rfl, h⟩
  | succ left ih =>
    by_cases hok : c.r.ok = true
    · have hok' : c'.r.ok = true := by
        rw [h.r]
        exact hok
      rw [trace_succ hok] at hread hck
      rw [trace_succ hok'] at hck
      dsimp only at hread hck
      rw [opsLoop_succ hok, opsLoop_succ hok']
      dsimp only
      obtain ⟨hst, hafter⟩ := execOp_alike h hs hr hcfg (hread _ List.mem_cons_self) (hck 0 _ _ rfl rfl)
      rw [hst] at hck ⊢
      split_ifs with hstat
      · rw [if_pos hstat] at hread
        rw [if_pos hstat, if_pos hstat] at hck
        refine ih hafter (fun x hx => hread x (List.mem_cons_of_mem _ hx)) fun i x x' hx hx' => ?_
        exact hck (i + 1) x x' hx hx'
      · exact ⟨rfl, rfl, hafter⟩
    · rw [Bool.not_eq_true] at hok
      have hok' : c'.r.ok = false := by
        rw [h.r]
        exact hok
      unfold opsLoop
      rw [hok, hok']
      exact ⟨rfl, rfl, h⟩

end Calls

end Call4

open Call4 (SealedStep SameCaches)

/-- A COMPOUND whose steps read what is fixed has the same result over both servers. -/
theorem compound_alike {host : Host} {hash : Bytes → UInt64} {pos : Nat → WalkOrder} {m : Msg} {r : Reader} {u u' : Server4}
    (hs : u.fs.Sound) (hr : PrfsStore.Run u.fs u'.fs) (hcfg : u'.fs.contentConfig = u.fs.contentConfig)
    (hread : ∀ x ∈ executed host hash pos m u r, SealedStep m x)
    (hck : ∀ (i : Nat) x x', (executed host hash pos m u r)[i]? = some x → (executed host hash pos m u' r)[i]? = some x' →
      SameCaches m x x') :
    (compound host hash pos m u' r).1 = (compound host hash pos m u r).1 := by
  unfold executed at hread hck
  unfold compound
  generalize readCompound m r = head at *
  obtain ⟨nops, tag, r1⟩ := head
  dsimp only at hread hck ⊢
  by_cases hres : (!r1.ok || decide (4096 < nops)) = true
  · rw [if_pos hres, if_pos hres]
  · rw [if_neg hres] at hread
    rw [if_neg hres, if_neg hres] at hck
    rw [if_neg hres, if_neg hres]
    have hstart : Call4.Abreast u.fs u'.fs { v := u.v, fs := u.fs, ckName := u.ckName, r := r1 }
        { v := u'.v, fs := u'.fs, ckName := u'.ckName, r := r1 } := ⟨rfl, rfl, rfl, rfl, rfl, rfl⟩
    generalize ({ v := u.v, fs := u.fs, ckName := u.ckName, r := r1 } : Call4) = c at *
    generalize ({ v := u'.v, fs := u'.fs, ckName := u'.ckName, r := r1 } : Call4) = c' at *
    obtain ⟨hlast, hdone, hc⟩ := @Call4.opsLoop_alike _ _ _ _ m host hash pos hs hr hcfg nops.toNat 0 .ok hstart hread hck
    rw [hlast, hdone, hc.r, hc.w]

/-- The reader at the arguments of a call. -/
def callArgs (m : Msg) : Reader :=
  let r := ((((((({} : Reader).u32 m).2.u32 m).2.u32 m).2.u32 m).2.u32 m).2.u32 m).2
  (r.skipAuth m).skipAuth m

theorem reply_alike {host : Host} {hash : Bytes → UInt64} {pos : Nat → WalkOrder} {m : Msg} {u u' : Server4}
    (hcompound : (compound host hash pos m u' (callArgs m)).1 = (compound host hash pos m u (callArgs m)).1) :
    (reply host hash pos m u').1 = (reply host hash pos m u).1 := by
  unfold callArgs at hcompound
  unfold reply
  dsimp only at hcompound ⊢
  split_ifs
  · rfl
  · rfl
  · dsimp only
    rw [hcompound]
  · rfl

end NfsV4

namespace Server

variable {h : Host} {hash : Bytes → UInt64} {s t : Server}

/-- Whatever the connections do in between, a call whose operations only read what was sealed, or walk there, is answered with
the same bytes, while the content policy stays and a cookie that it resumes from is cached on both sides or on none. -/
theorem sealed_compounds (hs : PrfsStore.Run .empty s.fs) (ht : Traffic h hash s t)
    (hcfg : t.fs.contentConfig = s.fs.contentConfig) {pos : Nat → WalkOrder} {m : Msg}
    (hread : ∀ x ∈ NfsV4.executed h hash pos m s.server4 (NfsV4.callArgs m), NfsV4.Call4.SealedStep m x)
    (hck : ∀ (i : Nat) x x', (NfsV4.executed h hash pos m s.server4 (NfsV4.callArgs m))[i]? = some x →
      (NfsV4.executed h hash pos m t.server4 (NfsV4.callArgs m))[i]? = some x' → NfsV4.Call4.SameCaches m x x') :
    (NfsV4.reply h hash pos m t.server4).1 = (NfsV4.reply h hash pos m s.server4).1 :=
  NfsV4.reply_alike (NfsV4.compound_alike hs.sound ht.fs_run hcfg hread hck)

set_option maxRecDepth 4000 in
/-- A COMPOUND that walks from the root into its first snapshot and lists it. -/
def listFirst : Msg :=
  let header : List UInt32 := [7, RPC_CALL, 2, PROG_NFS, NfsV4.NFS_V4, 1, 0, 0, 0, 0, 0, 0, 4, 24, 15]
  let w := (((header.foldl Writer.u32 {}).str SNAPSHOT_NAME).u32 15).str [49]
  let w := ((w.u32 26).u64 0).u64 0
  ⟨(([0, 1000, 1, 0x100010] : List UInt32).foldl Writer.u32 w).v, fun _ => 0, by decide⟩

set_option maxRecDepth 20000 in
theorem sealed_compounds_listing :
    let s : Server := { fs := sealedA }
    let t := s.after {} (fun _ => 0) [.record NfsV3.createA, .direct (.unlink ⟨1, LATEST⟩ [97]), .direct (.setAttr ⟨2, 1⟩ (.mode 0))]
    (NfsV4.reply {} (fun _ => 0) (fun _ _ => 0) listFirst t.server4).1 =
      (NfsV4.reply {} (fun _ => 0) (fun _ _ => 0) listFirst s.server4).1 := by
  intro s t
  have hs : PrfsStore.Run .empty s.fs := PrfsStore.run_after (by decide)
  have ht : Traffic {} (fun _ => 0) s t := traffic_after (by decide)
  have hread : ∀ x ∈ NfsV4.executed {} (fun _ => 0) (fun _ _ => 0) listFirst s.server4 (NfsV4.callArgs listFirst),
      NfsV4.Call4.SealedStep listFirst x := by decide
  have hstart : ∀ x ∈ NfsV4.executed {} (fun _ => 0) (fun _ _ => 0) listFirst s.server4 (NfsV4.callArgs listFirst),
      Op4.ofCode x.op = some .readdir → (x.before.r.u64 listFirst).1 = 0 := by decide
  refine sealed_compounds hs ht (by decide) hread fun i x x' hx _ hop htag => ?_
  exact absurd (hstart x (List.mem_of_getElem? hx) hop) htag

end Server

end Prfs
