import Prfs.CookieScans
import Prfs.GreedyPrefix
import Prfs.Nfs4Read
import Prfs.SealedReads

namespace Prfs

namespace PrfsStore

variable {s : PrfsStore} {dir : Node}

/-- The entries that a page of a directory after a cursor starts with. -/
def dirAhead (s : PrfsStore) (dir : Node) (after : Bytes) : List (Bytes × Node) :=
  if isSnapDir dir.id then s.snapEntries (snapBase dir.id) (snapStart after)
  else (s.readdir dir).filter (fun e => after < e.1)

theorem ahead (s : PrfsStore) (dir : Node) : s.Ahead dir (s.dirAhead dir) := by
  cases hd : isSnapDir dir.id with
  | true =>
    have heq : s.dirAhead dir = fun after => s.snapEntries (snapBase dir.id) (snapStart after) :=
      funext fun after => if_pos hd
    rw [heq]
    exact ahead_snapshots hd
  | false =>
    have heq : s.dirAhead dir = fun after => (s.readdir dir).filter (fun e => after < e.1) :=
      funext fun after => if_neg (by rw [hd]; exact Bool.false_ne_true)
    rw [heq]
    exact ahead_names hd

/-- No node has a record before the first snapshot. -/
theorem Run.existedAt_zero (hs : Run empty s) (id : UInt64) : s.existedAt id 0 = false := by
  have hkeep := (run_keeps Sound.empty hs).view (g := 0) (by decide)
  have hnone : (viewAt s.kv 0).node id = none := by
    rw [hkeep, Refines.empty.past (g := 0) (by decide)]
    rfl
  rw [existedAt, viewAt_node_none.mp hnone]
  rfl

theorem snapEntries_zero (hs : Run empty s) (base : UInt64) : s.snapEntries base 0 = s.snapEntries base 1 := by
  refine congrArg (List.map _) ((((snapRange_sorted 0 s.cur).filter _).eq_of_mem_iff
    ((snapRange_sorted 1 s.cur).filter _)) fun g => ?_)
  simp only [List.mem_filter, mem_snapRange]
  by_cases hg : g = 0
  · subst hg
    simp [hs.existedAt_zero]
  · have hpos : (0 : SnapId) ≤ g ∧ (1 : SnapId) ≤ g := by
      constructor <;> grind
    simp [hpos]

/-- The pages of a listing are counted for all of its entries. -/
theorem dirAhead_length_lt (hs : Run empty s) (dir : Node) (after : Bytes) :
    (s.dirAhead dir after).length < pageFuel s dir := by
  refine Nat.lt_succ_of_le ?_
  unfold dirAhead
  split_ifs with hd
  · rw [readdir, if_pos hd]
    by_cases hzero : snapStart after = 0
    · rw [hzero, snapEntries_zero hs]
    · simp only [snapEntries, List.length_map]
      have hsub : ((snapRange (snapStart after) s.cur).filter (fun n => s.existedAt (snapBase dir.id) n)).Sublist
          ((snapRange 1 s.cur).filter (fun n => s.existedAt (snapBase dir.id) n)) := by
        refine List.Sublist.filter _ ?_
        refine List.sublist_of_subperm_of_pairwise ?_ (snapRange_sorted ..) (snapRange_sorted ..)
        refine List.subperm_of_subset ((snapRange_sorted ..).imp ne_of_lt) fun g hg => ?_
        obtain ⟨hlo, hhi⟩ := mem_snapRange.mp hg
        refine mem_snapRange.mpr ⟨le_trans ?_ hlo, hhi⟩
        grind
      exact hsub.length_le
  · exact List.length_filter_le ..

end PrfsStore

namespace NfsV3

variable {v : NfsV3} {dir : Node} {cookie : UInt64} {maxBytes perEntry : Nat}

theorem dot_untagged : CK_DOT &&& CK_ENTRY = 0 := by decide

theorem dotdot_untagged : CK_DOTDOT &&& CK_ENTRY = 0 := by decide

/-- What an entry is counted with. -/
def DirEnt.size (perEntry : Nat) (e : DirEnt) : Nat := entrySize perEntry e.name

/-- The page is the one before with what fits of some entries, and the cache knows where to go on. -/
structure Page.Takes (maxBytes perEntry : Nat) (p : Page) (es : List DirEnt) (r : Bool × Page) : Prop where
  ents : r.2.ents = p.ents ++ greedy (DirEnt.size perEntry) maxBytes p.budget es
  all : r.1 = true ↔ greedy (DirEnt.size perEntry) maxBytes p.budget es = es
  last : ∀ e, (greedy (DirEnt.size perEntry) maxBytes p.budget es).getLast? = some e → e.cookie &&& CK_ENTRY ≠ 0 →
    r.2.ckName.get e.cookie = some e.name
  same : greedy (DirEnt.size perEntry) maxBytes p.budget es = [] → r.2 = p

theorem fits_iff {p : Page} {name : Bytes} :
    fits maxBytes perEntry p name = true ↔ p.budget + entrySize perEntry name ≤ maxBytes := decide_eq_true_iff

namespace Page.Takes

variable {p p' : Page} {e : DirEnt} {es : List DirEnt} {r : Bool × Page}

theorem cons (hfit : fits maxBytes perEntry p e.name = true) (hents : p'.ents = p.ents ++ [e])
    (hbudget : p'.budget = p.budget + e.size perEntry) (h : p'.Takes maxBytes perEntry es r)
    (hlast : greedy (DirEnt.size perEntry) maxBytes p'.budget es = [] → e.cookie &&& CK_ENTRY ≠ 0 →
      r.2.ckName.get e.cookie = some e.name) : p.Takes maxBytes perEntry (e :: es) r := by
  have hcons : greedy (DirEnt.size perEntry) maxBytes p.budget (e :: es) =
      e :: greedy (DirEnt.size perEntry) maxBytes p'.budget es := by
    rw [hbudget]
    exact greedy_cons_of_fits es (fits_iff.mp hfit)
  refine ⟨?_, ?_, ?_, fun hnil => ?_⟩
  · rw [hcons, h.ents, hents, List.append_assoc, List.singleton_append]
  · rw [hcons, h.all, List.cons.injEq, and_iff_right rfl]
  · refine greedy_last_cons (fits_iff.mp hfit) ?_ ?_
    · exact hbudget ▸ h.last
    · exact hbudget ▸ hlast
  · rw [hcons] at hnil
    cases hnil

theorem full (hfit : ¬ fits maxBytes perEntry p e.name = true) : p.Takes maxBytes perEntry (e :: es) (false, p) := by
  have hnil : greedy (DirEnt.size perEntry) maxBytes p.budget (e :: es) = [] :=
    greedy_cons_of_not_fits es fun h => hfit (fits_iff.mpr h)
  refine ⟨?_, ?_, fun x hx => ?_, fun _ => rfl⟩
  · rw [hnil, List.append_nil]
  · simp [hnil]
  · rw [hnil] at hx
    cases hx

/-- An entry of the service's own, listed before the others from its cookie on. -/
theorem synthesized {c : Prop} [Decidable c] {next : Page → Option (Bool × Page)} (hck : e.cookie &&& CK_ENTRY = 0)
    (hnext : ∀ q, next q = some r → q.Takes maxBytes perEntry es r)
    (h : (if decide c && !fits maxBytes perEntry p e.name then some (false, p)
      else next (if c then p.push perEntry e else p)) = some r) :
    p.Takes maxBytes perEntry ((if c then [e] else []) ++ es) r := by
  by_cases hc : c
  · simp only [hc, decide_true, Bool.true_and, if_true] at h ⊢
    split_ifs at h with hfit
    · obtain rfl := Option.some.inj h
      exact full (by simpa using hfit)
    · exact cons (by simpa using hfit) rfl rfl (hnext _ h) fun _ hno => absurd hck hno
  · simp only [hc, decide_false, Bool.false_and, Bool.false_eq_true, if_false] at h ⊢
    exact hnext p h

end Page.Takes

theorem pageEntries_takes (es : List (Bytes × Node)) (p : Page) :
    p.Takes maxBytes perEntry (es.map entOf) (pageEntries maxBytes perEntry es p) := by
  induction es generalizing p with
  | nil =>
    refine ⟨(List.append_nil _).symm, by simp [pageEntries, greedy], fun e he => ?_, fun _ => rfl⟩
    cases he
  | cons e es ih =>
    obtain ⟨name, node⟩ := e
    rw [List.map_cons, pageEntries]
    by_cases hfit : fits maxBytes perEntry p name = true
    · rw [hfit, Bool.not_true, if_neg Bool.false_ne_true]
      refine Page.Takes.cons hfit rfl rfl (ih _) fun hnil _ => ?_
      rw [(ih _).same hnil]
      exact (OrdMap.get_put ..).trans (if_pos rfl)
    · rw [if_pos (by simpa using hfit)]
      exact Page.Takes.full hfit

/-- Where the store is asked to go on for a cookie. -/
def resumePoint (v : NfsV3) (dir : Node) (cookie : UInt64) : Bytes :=
  if cookie &&& CK_ENTRY ≠ 0 then (resumeName v.ckName v.fs dir cookie).getD [] else []

/-- The name of a tagged cookie is known or found. -/
def Resumes (v : NfsV3) (dir : Node) (cookie : UInt64) : Prop :=
  cookie &&& CK_ENTRY ≠ 0 → (resumeName v.ckName v.fs dir cookie).isSome

/-- The entries that a listing has left after a cookie. -/
def pending (v : NfsV3) (dir : Node) (cookie : UInt64) : List DirEnt :=
  (if cookie < CK_DOT then [⟨dot, CK_DOT, dir⟩] else []) ++
    ((if cookie < CK_DOTDOT then [⟨dotdot, CK_DOTDOT, firstParent v.fs dir⟩] else []) ++
      (v.fs.dirAhead dir (resumePoint v dir cookie)).map entOf)

/-- A page from the store's entries on. -/
def pageFrom (v : NfsV3) (dir : Node) (cookie : UInt64) (maxBytes perEntry : Nat) (p : Page) : Option (Bool × Page) :=
  if cookie &&& CK_ENTRY ≠ 0 then
    (resumeName v.ckName v.fs dir cookie).map (fun after =>
      pageStore v.fs dir maxBytes perEntry (pageFuel v.fs dir) after p)
  else some (pageStore v.fs dir maxBytes perEntry (pageFuel v.fs dir) [] p)

/-- A page from ".." on, where that is still to come. -/
def pageDotdot (v : NfsV3) (dir : Node) (cookie : UInt64) (maxBytes perEntry : Nat) (p : Page) :
    Option (Bool × Page) :=
  if cookie < CK_DOTDOT && !fits maxBytes perEntry p dotdot then some (false, p)
  else
    pageFrom v dir cookie maxBytes perEntry
      (if cookie < CK_DOTDOT then p.push perEntry ⟨dotdot, CK_DOTDOT, firstParent v.fs dir⟩ else p)

theorem pageDir_eq : pageDir v dir cookie maxBytes perEntry =
    if cookie < CK_DOT && !fits maxBytes perEntry { ckName := v.ckName } dot then some (false, { ckName := v.ckName })
    else pageDotdot v dir cookie maxBytes perEntry
      (if cookie < CK_DOT then Page.push { ckName := v.ckName } perEntry ⟨dot, CK_DOT, dir⟩
        else { ckName := v.ckName }) := rfl

theorem pageFrom_takes (hs : PrfsStore.Run .empty v.fs) {p : Page} {r : Bool × Page}
    (h : pageFrom v dir cookie maxBytes perEntry p = some r) :
    p.Takes maxBytes perEntry ((v.fs.dirAhead dir (resumePoint v dir cookie)).map entOf) r := by
  have hstore : ∀ after, p.Takes maxBytes perEntry ((v.fs.dirAhead dir after).map entOf)
      (pageStore v.fs dir maxBytes perEntry (pageFuel v.fs dir) after p) := by
    intro after
    rw [pageStore_eq (v.fs.ahead dir) (PrfsStore.dirAhead_length_lt hs dir after)]
    exact pageEntries_takes _ p
  unfold pageFrom at h
  unfold resumePoint
  split_ifs at h ⊢ with hck
  · obtain ⟨after, hafter, rfl⟩ := Option.map_eq_some_iff.mp h
    rw [hafter]
    exact hstore after
  · obtain rfl := Option.some.inj h
    exact hstore []

theorem pageDir_takes (hs : PrfsStore.Run .empty v.fs) {r : Bool × Page}
    (h : pageDir v dir cookie maxBytes perEntry = some r) :
    Page.Takes maxBytes perEntry { ckName := v.ckName } (pending v dir cookie) r := by
  rw [pageDir_eq] at h
  exact Page.Takes.synthesized dot_untagged
    (fun q hq => Page.Takes.synthesized dotdot_untagged (fun p hp => pageFrom_takes hs hp) hq) h

theorem pageDir_of_resumes (maxBytes perEntry : Nat) (h : Resumes v dir cookie) :
    ∃ r, pageDir v dir cookie maxBytes perEntry = some r := by
  have hfrom : ∀ p, ∃ r, pageFrom v dir cookie maxBytes perEntry p = some r := by
    intro p
    unfold pageFrom
    split_ifs with hck
    · obtain ⟨after, hafter⟩ := Option.isSome_iff_exists.mp (h hck)
      rw [hafter]
      exact ⟨_, rfl⟩
    · exact ⟨_, rfl⟩
  have hdotdot : ∀ p, ∃ r, pageDotdot v dir cookie maxBytes perEntry p = some r := by
    intro p
    unfold pageDotdot
    split
    · exact ⟨_, rfl⟩
    · exact hfrom _
  rw [pageDir_eq]
  split
  · exact ⟨_, rfl⟩
  · exact hdotdot _

theorem untagged_of_lt (h : cookie < CK_DOTDOT) : cookie &&& CK_ENTRY = 0 := by
  rcases lt_two h with rfl | rfl <;> decide

theorem resumes_of_some {r : Bool × Page} (h : pageDir v dir cookie maxBytes perEntry = some r) :
    Resumes v dir cookie := by
  intro hck
  have hdotdot : ¬ cookie < CK_DOTDOT := fun hlt => hck (untagged_of_lt hlt)
  have hdot : ¬ cookie < CK_DOT := fun hlt => hdotdot (lt_trans hlt (by decide))
  simp only [pageDir_eq, pageDotdot, pageFrom, hdot, hdotdot, decide_false, Bool.false_and, Bool.false_eq_true, if_false,
    if_pos hck] at h
  obtain ⟨after, hafter, -⟩ := Option.map_eq_some_iff.mp h
  rw [hafter]
  rfl

/-- A cookie that carries no name resumes at the store's first entry. -/
theorem resumePoint_untagged (h : cookie &&& CK_ENTRY = 0) : resumePoint v dir cookie = [] :=
  if_neg (by rw [h]; exact not_not.mpr rfl)

theorem pending_zero : pending v dir 0 = ⟨dot, CK_DOT, dir⟩ :: ⟨dotdot, CK_DOTDOT, firstParent v.fs dir⟩ ::
    (v.fs.dirAhead dir []).map entOf := by
  rw [pending, if_pos (by decide), if_pos (by decide), resumePoint_untagged (by decide)]
  rfl

theorem pending_dot : pending v dir CK_DOT =
    ⟨dotdot, CK_DOTDOT, firstParent v.fs dir⟩ :: (v.fs.dirAhead dir []).map entOf := by
  rw [pending, if_neg (by decide), if_pos (by decide), resumePoint_untagged dot_untagged]
  rfl

theorem pending_dotdot : pending v dir CK_DOTDOT = (v.fs.dirAhead dir []).map entOf := by
  rw [pending, if_neg (by decide), if_neg (by decide), resumePoint_untagged (by decide)]
  rfl

theorem resumePoint_nameCookie (dir : Node) {name : Bytes} (h : v.ckName.get (nameCookie name) = some name) :
    resumePoint v dir (nameCookie name) = name := by
  rw [resumePoint, if_pos (nameCookie_tagged name), resumeName, h]
  rfl

/-- The cookie of an entry resumes with the ones behind it. -/
theorem pending_rest {xs ys : List DirEnt} {e : DirEnt} (h : pending v dir cookie = xs ++ e :: ys)
    {ckName : OrdMap UInt64 Bytes} (hlast : e.cookie &&& CK_ENTRY ≠ 0 → ckName.get e.cookie = some e.name) :
    Resumes { v with ckName } dir e.cookie ∧ pending { v with ckName } dir e.cookie = ys := by
  have hstored : ∀ {after : Bytes} {xs : List DirEnt}, (v.fs.dirAhead dir after).map entOf = xs ++ e :: ys →
      Resumes { v with ckName } dir e.cookie ∧ pending { v with ckName } dir e.cookie = ys := by
    intro after xs hs
    obtain ⟨es, rest, hsplit, -, hrest⟩ := List.map_eq_append_iff.mp hs
    obtain ⟨x, zs, rfl, rfl, rfl⟩ := List.map_eq_cons_iff.mp hrest
    have hck := nameCookie_tagged x.1
    have hget : ckName.get (nameCookie x.1) = some x.1 := hlast hck
    have hdot : ¬ nameCookie x.1 < CK_DOT := fun h => nameCookie_not_lt _ (lt_trans h (by decide))
    have hres : resumeName ckName v.fs dir (nameCookie x.1) = some x.1 := by
      rw [resumeName, hget]
    refine ⟨fun _ => Option.isSome_iff_exists.mpr ⟨_, hres⟩, ?_⟩
    have hpoint := resumePoint_nameCookie (v := { v with ckName }) dir hget
    rw [pending, entOf, if_neg hdot, if_neg (nameCookie_not_lt _), hpoint, (v.fs.ahead dir).rest after es x zs hsplit]
    rfl
  have hdots : ∀ {xs : List DirEnt}, ⟨dotdot, CK_DOTDOT, firstParent v.fs dir⟩ :: (v.fs.dirAhead dir []).map entOf = xs ++ e :: ys →
      Resumes { v with ckName } dir e.cookie ∧ pending { v with ckName } dir e.cookie = ys := by
    intro xs hs
    cases xs with
    | nil =>
      obtain ⟨rfl, rfl⟩ := List.cons.inj hs
      exact ⟨fun hck => absurd dotdot_untagged hck, pending_dotdot⟩
    | cons x xs => exact hstored (List.cons.inj hs).2
  by_cases hdot : cookie < CK_DOT
  · have hdotdot : cookie < CK_DOTDOT := lt_trans hdot (by decide)
    rw [pending, if_pos hdot, if_pos hdotdot, resumePoint_untagged (untagged_of_lt hdotdot)] at h
    cases xs with
    | nil =>
      obtain ⟨rfl, rfl⟩ := List.cons.inj h
      exact ⟨fun hck => absurd dot_untagged hck, pending_dot⟩
    | cons x xs => exact hdots (List.cons.inj h).2
  · rw [pending, if_neg hdot, List.nil_append] at h
    by_cases hdotdot : cookie < CK_DOTDOT
    · rw [if_pos hdotdot, resumePoint_untagged (untagged_of_lt hdotdot)] at h
      exact hdots h
    · rw [if_neg hdotdot, List.nil_append] at h
      exact hstored h

/-- A client gets a page after a cookie, and goes on with the cookie of its last entry. -/
def Gets (dir : Node) (maxBytes perEntry : Nat) (x : NfsV3 × UInt64) (eof : Bool) (es : List DirEnt)
    (y : NfsV3 × UInt64) : Prop :=
  ∃ p, pageDir x.1 dir x.2 maxBytes perEntry = some (eof, p) ∧ es = p.ents ∧
    y = ({ x.1 with ckName := p.ckName }, (es.getLast?.map DirEnt.cookie).getD x.2)

theorem gets_fills (dir : Node) (maxBytes perEntry : Nat) :
    Fills (DirEnt.size perEntry) maxBytes 128 (Gets dir maxBytes perEntry)
      (fun x => PrfsStore.Run .empty x.1.fs ∧ Resumes x.1 dir x.2) (fun x => pending x.1 dir x.2) where
  ex := by
    rintro ⟨v, cookie⟩ ⟨-, hres⟩
    obtain ⟨⟨eof, p⟩, hp⟩ := pageDir_of_resumes maxBytes perEntry hres
    exact ⟨eof, p.ents, _, p, hp, rfl, rfl⟩
  ents := by
    rintro ⟨v, cookie⟩ eof es y ⟨hs, -⟩ ⟨p, hp, rfl, -⟩
    exact (pageDir_takes hs hp).ents
  eof := by
    rintro ⟨v, cookie⟩ eof es y ⟨hs, -⟩ ⟨p, hp, rfl, -⟩
    have h := pageDir_takes hs hp
    rw [h.ents]
    exact h.all
  rest := by
    rintro ⟨v, cookie⟩ eof es y ⟨hs, hres⟩ ⟨p, hp, rfl, rfl⟩
    have h := pageDir_takes hs hp
    have hents : p.ents = greedy (DirEnt.size perEntry) maxBytes 128 (pending v dir cookie) := h.ents
    obtain ⟨rest, hrest⟩ := greedy_prefix (DirEnt.size perEntry) maxBytes 128 (pending v dir cookie)
    rw [← hents] at hrest
    cases hlast : p.ents.getLast? with
    | none =>
      have hnil := List.getLast?_eq_none_iff.mp hlast
      have hsame : p = { ckName := v.ckName } := h.same (hents.symm.trans hnil)
      rw [hsame]
      exact ⟨⟨hs, hres⟩, rfl⟩
    | some e =>
      obtain ⟨xs, hxs⟩ := List.getLast?_eq_some_iff.mp hlast
      rw [hxs, List.append_assoc, List.singleton_append] at hrest
      obtain ⟨hnext, hys⟩ := pending_rest hrest.symm fun hck => h.last e (hents ▸ hlast) hck
      refine ⟨⟨hs, hnext⟩, ?_⟩
      dsimp only [Option.map_some, Option.getD_some]
      rw [hys, hxs, List.append_assoc, List.singleton_append, hrest]

end NfsV3

end Prfs
