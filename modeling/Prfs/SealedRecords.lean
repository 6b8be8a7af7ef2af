import Prfs.Interleavings
import Prfs.SealedViews

namespace Prfs

namespace NfsV3

/-- The call answers alike: the same accept status and the same result. -/
def Alike (x y : Out) : Prop := x.1 = y.1 ∧ x.2.1 = y.2.1

theorem alike_answer {v v' : NfsV3} {w w' : Writer} (hw : w' = w) : Alike (answer v' w') (answer v w) := ⟨rfl, hw⟩

/-- The filehandle that the arguments start with, where it decodes, is a sealed one. -/
def SealedArg (fs : PrfsStore) (m : Msg) (r : Reader) : Prop :=
  ∀ id snap r', r.fh3 m = (some (id, snap), r') → fs.SealedNode ⟨id, snap⟩

section Encoders

variable {h : Host} {s t : PrfsStore} {n : Node} {w : Writer}

theorem encodeFattr_sealed (hsame : PrfsStore.SameSealed s t) (hn : s.SealedNode n) :
    encodeFattr h t w n = encodeFattr h s w n := by
  unfold encodeFattr
  rw [hsame.attrs hn, hsame.usedBytes hn]

theorem encodePostOp_sealed (hsame : PrfsStore.SameSealed s t) (hn : s.SealedNode n) :
    encodePostOp h t w (some n) = encodePostOp h s w (some n) := encodeFattr_sealed hsame hn

theorem encodeWcc_sealed (hsame : PrfsStore.SameSealed s t) (hn : s.SealedNode n) :
    encodeWcc h t w (preOf t (some n)) (some n) = encodeWcc h s w (preOf s (some n)) (some n) := by
  unfold encodeWcc preOf
  rw [Option.map_some, Option.map_some, hsame.attrs hn, encodePostOp_sealed hsame hn]

end Encoders

section Handlers

variable {h : Host} {v v' : NfsV3} {m : Msg} {r : Reader} {w : Writer}

theorem nfsGetattr_sealed (hsame : PrfsStore.SameSealed v.fs v'.fs) (harg : SealedArg v.fs m r) :
    Alike (nfsGetattr h v' m r w) (nfsGetattr h v m r w) := by
  unfold nfsGetattr
  rcases hf : r.fh3 m with ⟨_ | ⟨id, snap⟩, r1⟩
  · exact ⟨rfl, rfl⟩
  · have hn := harg id snap r1 hf
    dsimp only
    rcases hsame.cases hn with ⟨ht, hs⟩ | ⟨ht, hs⟩
    · rw [ht, hs]
      exact ⟨rfl, rfl⟩
    · rw [ht, hs]
      exact alike_answer (encodeFattr_sealed hsame hn)

theorem nfsReadlink_sealed (hsame : PrfsStore.SameSealed v.fs v'.fs) (harg : SealedArg v.fs m r) :
    Alike (nfsReadlink h v' m r w) (nfsReadlink h v m r w) := by
  unfold nfsReadlink
  rcases hf : r.fh3 m with ⟨_ | ⟨id, snap⟩, r1⟩
  · exact ⟨rfl, rfl⟩
  · have hn := harg id snap r1 hf
    dsimp only
    rcases hsame.cases hn with ⟨ht, hs⟩ | ⟨ht, hs⟩
    · rw [ht, hs]
      exact ⟨rfl, rfl⟩
    · rw [ht, hs]
      dsimp only
      rw [hsame.attrs hn, encodePostOp_sealed hsame hn, encodePostOp_sealed hsame hn]
      split_ifs
      · exact ⟨rfl, rfl⟩
      · exact ⟨rfl, rfl⟩

theorem nfsLookup_sealed (hsame : PrfsStore.SameSealed v.fs v'.fs) (harg : SealedArg v.fs m r) :
    Alike (nfsLookup h v' m r w) (nfsLookup h v m r w) := by
  unfold nfsLookup
  rcases hf : r.fh3 m with ⟨_ | ⟨id, snap⟩, r1⟩
  · exact ⟨rfl, rfl⟩
  · have hn := harg id snap r1 hf
    dsimp only
    split_ifs
    · exact ⟨rfl, rfl⟩
    · rcases hsame.cases hn with ⟨ht, hs⟩ | ⟨ht, hs⟩
      · rw [ht, hs]
        exact ⟨rfl, rfl⟩
      · rw [ht, hs]
        dsimp only
        rw [hsame.attrs hn, hsame.lookup hn]
        split_ifs
        · exact alike_answer (encodePostOp_sealed hsame hn)
        · cases hx : v.fs.lookup ⟨id, snap⟩ (r1.str m).1 with
          | none => exact alike_answer (encodePostOp_sealed hsame hn)
          | some x =>
            dsimp only
            rw [encodePostOp_sealed hsame hn, encodePostOp_sealed hsame (hsame.found hn hx)]
            exact ⟨rfl, rfl⟩

theorem nfsAccess_sealed (hsame : PrfsStore.SameSealed v.fs v'.fs) (harg : SealedArg v.fs m r) :
    Alike (nfsAccess h v' m r w) (nfsAccess h v m r w) := by
  unfold nfsAccess
  rcases hf : r.fh3 m with ⟨_ | ⟨id, snap⟩, r1⟩
  · exact ⟨rfl, rfl⟩
  · have hn := harg id snap r1 hf
    dsimp only
    split_ifs
    · exact ⟨rfl, rfl⟩
    · rcases hsame.cases hn with ⟨ht, hs⟩ | ⟨ht, hs⟩
      · rw [ht, hs]
        exact ⟨rfl, rfl⟩
      · rw [ht, hs]
        dsimp only
        rw [encodePostOp_sealed hsame hn]
        exact ⟨rfl, rfl⟩

theorem nfsRead_sealed (hsame : PrfsStore.SameSealed v.fs v'.fs) (hcfg : v'.fs.contentConfig = v.fs.contentConfig)
    (harg : SealedArg v.fs m r) : Alike (nfsRead h v' m r w) (nfsRead h v m r w) := by
  unfold nfsRead
  rcases hf : r.fh3 m with ⟨_ | ⟨id, snap⟩, r1⟩
  · exact ⟨rfl, rfl⟩
  · have hn := harg id snap r1 hf
    dsimp only
    generalize (r1.u64 m).1 = off
    generalize ((r1.u64 m).2.u32 m).1 = cnt
    generalize (if MAX_READ < cnt then MAX_READ else cnt) = len
    split_ifs
    · exact ⟨rfl, rfl⟩
    · rcases hsame.cases hn with ⟨ht, hs⟩ | ⟨ht, hs⟩
      · rw [ht, hs]
        exact ⟨rfl, rfl⟩
      · rw [ht, hs]
        dsimp only
        simp only [hsame.attrs hn, hsame.read hcfg hn, encodePostOp_sealed hsame hn]
        split_ifs <;> exact ⟨rfl, rfl⟩

theorem nodeInfo_sealed {values values' : UInt64 → Writer → Writer} (hsame : PrfsStore.SameSealed v.fs v'.fs)
    (harg : SealedArg v.fs m r) (hvalues : ∀ g, g < v.fs.cur → values' g = values g) :
    Alike (nodeInfo h v' m r w values') (nodeInfo h v m r w values) := by
  unfold nodeInfo
  rcases hf : r.fh3 m with ⟨_ | ⟨id, snap⟩, r1⟩
  · exact ⟨rfl, rfl⟩
  · have hn := harg id snap r1 hf
    dsimp only
    rcases hsame.cases hn with ⟨ht, hs⟩ | ⟨ht, hs⟩
    · rw [ht, hs]
      exact ⟨rfl, rfl⟩
    · rw [ht, hs]
      dsimp only
      rw [hvalues snap hn.2, encodePostOp_sealed hsame hn]
      exact ⟨rfl, rfl⟩

theorem nfsCommit_sealed (hsame : PrfsStore.SameSealed v.fs v'.fs) (harg : SealedArg v.fs m r) :
    Alike (nfsCommit h v' m r w) (nfsCommit h v m r w) := by
  unfold nfsCommit
  rcases hf : r.fh3 m with ⟨_ | ⟨id, snap⟩, r1⟩
  · exact ⟨rfl, rfl⟩
  · have hn := harg id snap r1 hf
    dsimp only
    rcases hsame.cases hn with ⟨ht, hs⟩ | ⟨ht, hs⟩
    · rw [ht, hs]
      exact ⟨rfl, rfl⟩
    · rw [ht, hs]
      dsimp only
      rw [encodeWcc_sealed hsame hn]
      exact ⟨rfl, rfl⟩

end Handlers

section Listings

variable {h : Host} {v v' : NfsV3} {m : Msg} {r : Reader} {w : Writer} {s t : PrfsStore} {dir : Node} {p p' : Page}
  {maxBytes perEntry : Nat}

/-- Two pages with the same entries, all of them sealed handles, of the same size. -/
structure Page.Alike (s : PrfsStore) (p p' : Page) : Prop where
  ents : p'.ents = p.ents
  budget : p'.budget = p.budget
  nodes : ∀ e ∈ p.ents, s.SealedNode e.node

theorem Page.Alike.push (hp : p.Alike s p') {e : DirEnt} (he : s.SealedNode e.node) (ck ck' : OrdMap UInt64 Bytes) :
    Page.Alike s { p.push perEntry e with ckName := ck } { p'.push perEntry e with ckName := ck' } := by
  refine ⟨?_, ?_, fun x hx => ?_⟩
  · exact congrArg (· ++ [e]) hp.ents
  · exact congrArg (· + entrySize perEntry e.name) hp.budget
  · rcases List.mem_append.mp hx with hx | hx
    · exact hp.nodes x hx
    · obtain rfl := List.mem_singleton.mp hx
      exact he

theorem pageEntries_alike {es : List (Bytes × Node)} (hes : ∀ e ∈ es, s.SealedNode e.2) (hp : p.Alike s p') :
    (pageEntries maxBytes perEntry es p').1 = (pageEntries maxBytes perEntry es p).1 ∧
      (pageEntries maxBytes perEntry es p).2.Alike s (pageEntries maxBytes perEntry es p').2 := by
  induction es generalizing p p' with
  | nil => exact ⟨rfl, hp⟩
  | cons e es ih =>
    obtain ⟨name, node⟩ := e
    have hfits : fits maxBytes perEntry p' name = fits maxBytes perEntry p name := by
      unfold fits
      rw [hp.budget]
    rw [pageEntries, pageEntries, hfits]
    split_ifs
    · exact ⟨rfl, hp⟩
    · exact ih (fun e he => hes e (List.mem_cons_of_mem _ he)) (hp.push (hes _ List.mem_cons_self) _ _)

theorem pageStore_alike (hsame : PrfsStore.SameSealed s t) (hn : s.SealedNode dir) (fuel : Nat) (after : Bytes)
    (hp : p.Alike s p') :
    (pageStore t dir maxBytes perEntry fuel after p').1 = (pageStore s dir maxBytes perEntry fuel after p).1 ∧
      (pageStore s dir maxBytes perEntry fuel after p).2.Alike s (pageStore t dir maxBytes perEntry fuel after p').2 := by
  induction fuel generalizing after p p' with
  | zero => exact ⟨rfl, hp⟩
  | succ fuel ih =>
    rw [pageStore, pageStore, hsame.page hn]
    obtain ⟨hall, hents⟩ := @pageEntries_alike s p p' maxBytes perEntry _ (fun e he => @hsame.listed dir after 512 e hn he) hp
    rcases he : pageEntries maxBytes perEntry (s.readdirPage dir after 512).entries p with ⟨all, q⟩
    rcases he' : pageEntries maxBytes perEntry (s.readdirPage dir after 512).entries p' with ⟨all', q'⟩
    rw [he, he'] at hall hents
    obtain rfl : all' = all := hall
    cases all' with
    | false => exact ⟨rfl, hents⟩
    | true =>
      dsimp only
      split_ifs
      · exact ⟨rfl, hents⟩
      · exact ih _ hents

/-- The caches agree on the cookie, where it is one that is looked up. -/
def SameCookie (v v' : NfsV3) (cookie : UInt64) : Prop :=
  cookie &&& CK_ENTRY ≠ 0 → v'.ckName.get cookie = v.ckName.get cookie

theorem pageDir_alike (hsame : PrfsStore.SameSealed v.fs v'.fs) (hn : v.fs.SealedNode dir) {cookie : UInt64}
    (hck : SameCookie v v' cookie) :
    pageDir v' dir cookie maxBytes perEntry = none ∧ pageDir v dir cookie maxBytes perEntry = none ∨
      ∃ eof p p', pageDir v' dir cookie maxBytes perEntry = some (eof, p') ∧
        pageDir v dir cookie maxBytes perEntry = some (eof, p) ∧ p.Alike v.fs p' := by
  have hstart : Page.Alike v.fs { ckName := v.ckName } { ckName := v'.ckName } := ⟨rfl, rfl, fun _ he => by cases he⟩
  have hpush : ∀ {p p' : Page} {c : Prop} [Decidable c] {e : DirEnt}, p.Alike v.fs p' → v.fs.SealedNode e.node →
      Page.Alike v.fs (if c then p.push perEntry e else p) (if c then p'.push perEntry e else p') := by
    intro p p' c _ e hp he
    split_ifs
    · exact hp.push he _ _
    · exact hp
  have hfits : ∀ {p p' : Page} (name : Bytes), p.Alike v.fs p' → fits maxBytes perEntry p' name =
      fits maxBytes perEntry p name := by
    intro p p' name hp
    unfold fits
    rw [hp.budget]
  obtain ⟨hparent, hup⟩ := hsame.firstParent hn
  obtain ⟨p1, p1', hp1, hp1', hdot⟩ : ∃ p p' : Page, _ = p ∧ _ = p' ∧ p.Alike v.fs p' :=
    ⟨_, _, rfl, rfl, @hpush _ _ (cookie < CK_DOT) _ ⟨dot, CK_DOT, dir⟩ hstart hn⟩
  obtain ⟨p2, p2', hp2, hp2', hdotdot⟩ : ∃ p p' : Page, _ = p ∧ _ = p' ∧ p.Alike v.fs p' :=
    ⟨_, _, rfl, rfl, @hpush _ _ (cookie < CK_DOTDOT) _ ⟨dotdot, CK_DOTDOT, firstParent v.fs dir⟩ hdot hup⟩
  have hrest : ∀ {q q' : Page}, q.Alike v.fs q' → ∀ after, ∃ eof x x',
      pageStore v'.fs dir maxBytes perEntry (pageFuel v'.fs dir) after q' = (eof, x') ∧
      pageStore v.fs dir maxBytes perEntry (pageFuel v.fs dir) after q = (eof, x) ∧ x.Alike v.fs x' := by
    intro q q' hq after
    obtain ⟨heof, hx⟩ := @pageStore_alike _ _ _ _ _ maxBytes perEntry hsame hn (pageFuel v.fs dir) after hq
    rw [hsame.pageFuel hn]
    generalize pageStore v'.fs dir maxBytes perEntry (pageFuel v.fs dir) after q' = x' at *
    generalize pageStore v.fs dir maxBytes perEntry (pageFuel v.fs dir) after q = x at *
    exact ⟨x.1, x.2, x'.2, Prod.ext heof rfl, rfl, hx⟩
  unfold pageDir
  dsimp only
  rw [hparent, hfits dot hstart, hp1, hp1', hfits dotdot hdot, hp2, hp2']
  by_cases h1 : (decide (cookie < CK_DOT) && !fits maxBytes perEntry { ckName := v.ckName } dot) = true
  · rw [if_pos h1, if_pos h1]
    exact .inr ⟨_, _, _, rfl, rfl, hstart⟩
  rw [if_neg h1, if_neg h1]
  by_cases h2 : (decide (cookie < CK_DOTDOT) && !fits maxBytes perEntry p1 dotdot) = true
  · rw [if_pos h2, if_pos h2]
    exact .inr ⟨_, _, _, rfl, rfl, hdot⟩
  rw [if_neg h2, if_neg h2]
  by_cases h3 : cookie &&& CK_ENTRY ≠ 0
  · rw [if_pos h3, if_pos h3, hsame.resumeName hn (hck h3)]
    cases resumeName v.ckName v.fs dir cookie with
    | none => exact .inl ⟨rfl, rfl⟩
    | some after =>
      obtain ⟨eof, q, q', hq', hq, halike⟩ := hrest hdotdot after
      exact .inr ⟨eof, q, q', congrArg some hq', congrArg some hq, halike⟩
  · rw [if_neg h3, if_neg h3]
    obtain ⟨eof, q, q', hq', hq, halike⟩ := hrest hdotdot []
    exact .inr ⟨eof, q, q', congrArg some hq', congrArg some hq, halike⟩

theorem listDir_alike (hsame : PrfsStore.SameSealed v.fs v'.fs) {id snap cookie : UInt64} (hn : v.fs.SealedNode ⟨id, snap⟩)
    (hck : SameCookie v v' cookie) {encode encode' : Writer → DirEnt → Writer}
    (hencode : ∀ w e, v.fs.SealedNode e.node → encode' w e = encode w e) :
    Alike (listDir h v' w id snap cookie maxBytes perEntry encode') (listDir h v w id snap cookie maxBytes perEntry encode) := by
  unfold listDir
  rcases hsame.cases hn with ⟨ht, hs⟩ | ⟨ht, hs⟩
  · rw [ht, hs]
    exact ⟨rfl, rfl⟩
  · rw [ht, hs]
    dsimp only
    rw [hsame.attrs hn]
    split_ifs
    · exact alike_answer (encodePostOp_sealed hsame hn)
    · rcases @pageDir_alike v v' ⟨id, snap⟩ maxBytes perEntry hsame hn cookie hck with
        ⟨hp', hp⟩ | ⟨eof, q, q', hp', hp, hq⟩
      · rw [hp, hp']
        exact alike_answer (encodePostOp_sealed hsame hn)
      · rw [hp, hp']
        dsimp only
        have hfold : ∀ w, q'.ents.foldl encode' w = q.ents.foldl encode w := by
          intro w
          rw [hq.ents]
          exact List.foldl_ext _ _ _ fun w e he => hencode w e (hq.nodes e he)
        refine ⟨rfl, ?_⟩
        show (Writer.u32 (Writer.u32 _ 0) _) = _
        rw [hfold, encodePostOp_sealed hsame hn]
        rfl

end Listings

section Calls

variable {h : Host} {v v' : NfsV3} {m : Msg} {r : Reader} {w : Writer} {s t : PrfsStore}

/-- The cookie that a listing is resumed from. -/
def listCookie (m : Msg) (r : Reader) : Proc3 → Option UInt64
  | .readdir | .readdirplus => some ((r.fh3 m).2.u64 m).1
  | _ => none

theorem encodeEntryPlus_sealed (hsame : PrfsStore.SameSealed s t) {e : DirEnt} (he : s.SealedNode e.node) :
    encodeEntryPlus h t w e = encodeEntryPlus h s w e := by
  unfold encodeEntryPlus
  rw [encodePostOp_sealed hsame he]

theorem nfsReaddir_sealed (hsame : PrfsStore.SameSealed v.fs v'.fs) (harg : SealedArg v.fs m r)
    (hck : SameCookie v v' ((r.fh3 m).2.u64 m).1) : Alike (nfsReaddir h v' m r w) (nfsReaddir h v m r w) := by
  unfold nfsReaddir
  rcases hf : r.fh3 m with ⟨_ | ⟨id, snap⟩, r1⟩
  · exact ⟨rfl, rfl⟩
  · rw [hf] at hck
    dsimp only
    split_ifs
    · exact ⟨rfl, rfl⟩
    · exact listDir_alike hsame (harg id snap r1 hf) hck fun _ _ _ => rfl

theorem nfsReaddirPlus_sealed (hsame : PrfsStore.SameSealed v.fs v'.fs) (harg : SealedArg v.fs m r)
    (hck : SameCookie v v' ((r.fh3 m).2.u64 m).1) : Alike (nfsReaddirPlus h v' m r w) (nfsReaddirPlus h v m r w) := by
  unfold nfsReaddirPlus
  rcases hf : r.fh3 m with ⟨_ | ⟨id, snap⟩, r1⟩
  · exact ⟨rfl, rfl⟩
  · rw [hf] at hck
    dsimp only
    split_ifs
    · exact ⟨rfl, rfl⟩
    · exact listDir_alike hsame (harg id snap r1 hf) hck fun _ _ he => encodeEntryPlus_sealed hsame he

/-- A procedure that mutates nothing answers a sealed handle alike. -/
theorem runProc_sealed {isLive : UInt64 → Bool} {cred : Cred} (hsame : PrfsStore.SameSealed v.fs v'.fs)
    (hcfg : v'.fs.contentConfig = v.fs.contentConfig) (harg : SealedArg v.fs m r) {p : Proc3}
    (hp : p.isMutating = false) (hck : ∀ ck, listCookie m r p = some ck → SameCookie v v' ck) :
    Alike (runProc h v' m r isLive w cred p) (runProc h v m r isLive w cred p) := by
  cases p with
  | null => exact ⟨rfl, rfl⟩
  | getattr => exact nfsGetattr_sealed hsame harg
  | lookup => exact nfsLookup_sealed hsame harg
  | access => exact nfsAccess_sealed hsame harg
  | readlink => exact nfsReadlink_sealed hsame harg
  | read => exact nfsRead_sealed hsame hcfg harg
  | readdir => exact nfsReaddir_sealed hsame harg (hck _ rfl)
  | readdirplus => exact nfsReaddirPlus_sealed hsame harg (hck _ rfl)
  | fsstat =>
    rw [runProc, runProc, nfsFsstat, nfsFsstat]
    refine nodeInfo_sealed hsame harg fun g hg => ?_
    rw [hsame.stats hg]
  | fsinfo =>
    rw [runProc, runProc, nfsFsinfo, nfsFsinfo]
    exact nodeInfo_sealed hsame harg fun _ _ => rfl
  | pathconf =>
    rw [runProc, runProc, nfsPathconf, nfsPathconf]
    exact nodeInfo_sealed hsame harg fun _ _ => rfl
  | commit => exact nfsCommit_sealed hsame harg
  | setattr | write | create | mkdir | symlink | mknod | remove | rmdir | rename | link => cases hp

theorem mountCall_alike (hroot : v'.fs.root = v.fs.root) (proc : UInt32) :
    Alike (mountCall v' m r w proc) (mountCall v m r w proc) := by
  have hmnt : Alike (mountMnt v' m r w) (mountMnt v m r w) := by
    unfold mountMnt PrfsStore.rwRoot
    rw [hroot]
    dsimp only
    split_ifs
    · exact ⟨rfl, rfl⟩
    · exact ⟨rfl, rfl⟩
  have humnt : Alike (mountUmnt v' m r w) (mountUmnt v m r w) := by
    unfold mountUmnt
    dsimp only
    split_ifs
    · exact ⟨rfl, rfl⟩
    · exact ⟨rfl, rfl⟩
  unfold mountCall
  split
  · exact ⟨rfl, rfl⟩
  · exact hmnt
  · exact humnt
  · exact ⟨rfl, rfl⟩
  · exact ⟨rfl, rfl⟩

/-- A record that mutates nothing and whose filehandle, where it has one, is sealed. -/
def SealedRecord (fs : PrfsStore) (m : Msg) : Prop :=
  ∀ c, readHeader m {} = some c → c.prog = PROG_NFS → ∀ p, Proc3.ofCode c.proc = some p →
    p.isMutating = false ∧ SealedArg fs m c.args

/-- The cookie that a record's listing is resumed from. -/
def recordCookie (m : Msg) : Option UInt64 :=
  (readHeader m {}).bind fun c => (Proc3.ofCode c.proc).bind (listCookie m c.args)

theorem dispatch_sealed (hsame : PrfsStore.SameSealed v.fs v'.fs) (hcfg : v'.fs.contentConfig = v.fs.contentConfig)
    (hroot : v'.fs.root = v.fs.root) {prog vers proc : UInt32} {cred : Cred}
    (hproc : prog = PROG_NFS → ∀ p, Proc3.ofCode proc = some p → p.isMutating = false ∧ SealedArg v.fs m r)
    (hck : ∀ ck, (Proc3.ofCode proc).bind (listCookie m r) = some ck → SameCookie v v' ck) :
    Alike (dispatch h v' m r prog vers proc cred) (dispatch h v m r prog vers proc cred) := by
  have hrun : Alike (run h v' m r prog vers proc cred) (run h v m r prog vers proc cred) := by
    unfold run nfsCall
    split_ifs with hprog hvers
    · cases hp : Proc3.ofCode proc with
      | none => exact ⟨rfl, rfl⟩
      | some p =>
        obtain ⟨hmut, harg⟩ := hproc hprog p hp
        rw [hp] at hck
        exact runProc_sealed hsame hcfg harg hmut hck
    · exact ⟨rfl, rfl⟩
    · exact mountCall_alike hroot proc
    · exact ⟨rfl, rfl⟩
    · exact ⟨rfl, rfl⟩
  have hstill : ¬ (prog = PROG_NFS ∧ (Proc3.ofCode proc).any Proc3.isMutating = true ∧ h.advance = true) := by
    rintro ⟨hprog, hany, -⟩
    cases hp : Proc3.ofCode proc with
    | none =>
      rw [hp] at hany
      cases hany
    | some p =>
      rw [hp, Option.any_some, (hproc hprog p hp).1] at hany
      cases hany
  unfold dispatch
  dsimp only
  rw [if_neg hstill, if_neg hstill]
  exact hrun

theorem session_sealed (hsame : PrfsStore.SameSealed v.fs v'.fs) (hcfg : v'.fs.contentConfig = v.fs.contentConfig)
    (hroot : v'.fs.root = v.fs.root) (hread : SealedRecord v.fs m)
    (hck : ∀ ck, recordCookie m = some ck → SameCookie v v' ck) :
    (session h v' m).map Prod.fst = (session h v m).map Prod.fst := by
  unfold session
  unfold recordCookie at hck
  split_ifs
  · rfl
  · cases hc : readHeader m {} with
    | none => rfl
    | some c =>
      rw [hc] at hck
      obtain ⟨hstat, hresult⟩ := @dispatch_sealed h v v' m c.args hsame hcfg hroot c.prog c.vers c.proc c.cred
        (hread c hc) hck
      rw [Option.map_some, Option.map_some, Option.map_some, Option.map_some]
      unfold reply
      dsimp only
      rw [hstat, hresult]

end Calls

end NfsV3

namespace Server

variable {h : Host} {hash : Bytes → UInt64} {s t : Server}

/-- Whatever the connections do in between, a record that only reads what was sealed is answered with the same bytes,
while the content policy stays and the cookie that it resumes from is still cached, or still is not. -/
theorem sealed_records (hs : PrfsStore.Run .empty s.fs) (ht : Traffic h hash s t)
    (hcfg : t.fs.contentConfig = s.fs.contentConfig) {m : Msg} (hread : NfsV3.SealedRecord s.fs m)
    (hck : ∀ ck, NfsV3.recordCookie m = some ck → ck &&& CK_ENTRY ≠ 0 → t.names.get ck = s.names.get ck) :
    (NfsV3.session h ⟨t.fs, t.names⟩ m).map Prod.fst = (NfsV3.session h ⟨s.fs, s.names⟩ m).map Prod.fst := by
  have hss := hs.sound
  have hrun := ht.fs_run
  have hroot : t.fs.root = s.fs.root := (hss.run hrun).root.trans hss.root.symm
  exact @NfsV3.session_sealed h ⟨s.fs, s.names⟩ ⟨t.fs, t.names⟩ m (hss.sameSealed hrun) hcfg hroot hread hck

/-- A directory with the entry "a", and a snapshot of it. -/
def sealedA : PrfsStore := PrfsStore.empty.after [.mkdir, .link ⟨1, LATEST⟩ [97] ⟨2, LATEST⟩, .snapshot []]

set_option maxRecDepth 2000 in
/-- A READDIR of the root in the first snapshot. -/
def listSealed : Msg :=
  ⟨(((((NfsV3.callHeader 16).fh 1 1).u64 0).u64 0).u32 1000).v, fun _ => 0, by decide⟩

set_option maxRecDepth 20000 in
theorem sealed_records_listing :
    let s : Server := { fs := sealedA }
    let t := s.after {} (fun _ => 0) [.record NfsV3.createA, .direct (.unlink ⟨1, LATEST⟩ [97]), .direct (.setAttr ⟨2, 1⟩ (.mode 0))]
    (NfsV3.session {} ⟨t.fs, t.names⟩ listSealed).map Prod.fst = (NfsV3.session {} ⟨s.fs, s.names⟩ listSealed).map Prod.fst := by
  intro s t
  have hs : PrfsStore.Run .empty s.fs := PrfsStore.run_after (by decide)
  have ht : Traffic {} (fun _ => 0) s t := traffic_after (by decide)
  have hhead : (NfsV3.readHeader listSealed {}).map (fun c => ((c.args.fh3 listSealed).1, Proc3.ofCode c.proc)) =
      some (some (1, 1), some .readdir) := by decide
  have hread : NfsV3.SealedRecord s.fs listSealed := by
    intro c hc hprog p hp
    rw [hc, Option.map_some] at hhead
    obtain ⟨hfh, hproc⟩ := Prod.mk.inj (Option.some.inj hhead)
    obtain rfl := Option.some.inj (hp.symm.trans hproc)
    refine ⟨rfl, fun id snap r' hf => ?_⟩
    rw [hf] at hfh
    obtain ⟨rfl, rfl⟩ := Prod.mk.inj (Option.some.inj hfh)
    exact ⟨by decide, by decide⟩
  have hcookie : NfsV3.recordCookie listSealed = some 0 := by decide
  refine sealed_records hs ht (by decide) hread fun ck hck htag => ?_
  obtain rfl := Option.some.inj (hck.symm.trans hcookie)
  exact absurd rfl htag

end Server

end Prfs
