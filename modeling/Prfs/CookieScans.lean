import Prfs.Nfs3Read
import Prfs.PagedListing
import Prfs.SortedScans

namespace Prfs

theorem or_and_cancel (a b : UInt64) : (a ||| b) &&& b = b := by
  refine UInt64.eq_of_toBitVec_eq (BitVec.eq_of_getLsbD_eq fun i _ => ?_)
  simp only [UInt64.toBitVec_and, UInt64.toBitVec_or, BitVec.getLsbD_and, BitVec.getLsbD_or]
  cases b.toBitVec.getLsbD i <;> simp

/-- A cookie of an entry carries the entry bit. -/
theorem nameCookie_entry (name : Bytes) : nameCookie name &&& CK_ENTRY = CK_ENTRY := or_and_cancel ..

theorem nameCookie_tagged (name : Bytes) : nameCookie name &&& CK_ENTRY ≠ 0 := by
  rw [nameCookie_entry]
  decide

/-- The cookies of "." and ".." are below those of entries. -/
theorem lt_two {ck : UInt64} (h : ck < 2) : ck = 0 ∨ ck = 1 := by
  rw [UInt64.lt_iff_toNat_lt, UInt64.toNat_ofNat] at h
  rcases Nat.lt_succ_iff_lt_or_eq.mp h with h | h
  · exact Or.inl (UInt64.toNat_inj.mp (Nat.lt_one_iff.mp h))
  · exact Or.inr (UInt64.toNat_inj.mp h)

namespace PrfsStore

variable {s : PrfsStore} {dir : Node} {ahead : Bytes → List (Bytes × Node)}

/-- The scan for a cookie looks at all of the entries to come. -/
theorem Ahead.resumeLoop_eq (h : s.Ahead dir ahead) (ck : UInt64) {fuel : Nat} {after : Bytes}
    (hfuel : (ahead after).length < fuel) :
    resumeLoop s dir ck fuel after = ((ahead after).find? (fun e => nameCookie e.1 = ck)).map Prod.fst := by
  induction fuel generalizing after with
  | zero => omega
  | succ fuel ih =>
    rw [resumeLoop]
    rcases h.next after (show 1 ≤ 256 by decide) with ⟨heof, hents⟩ | ⟨heof, hents, hne⟩
    · rw [hents, heof, Bool.or_true, if_pos rfl]
      cases (ahead after).find? (fun e => nameCookie e.1 = ck) <;> rfl
    · have hlen := List.length_pos_iff.mpr hne
      have hempty : (s.readdirPage dir after 256).entries.isEmpty = false := by simpa using hne
      rw [heof, hempty, hents, List.find?_append]
      cases (s.readdirPage dir after 256).entries.find? (fun e => nameCookie e.1 = ck) with
      | some e => rfl
      | none =>
        rw [Option.none_or]
        refine ih ?_
        rw [hents, List.length_append] at hfuel
        omega

end PrfsStore

namespace NfsV3

variable {maxBytes perEntry : Nat} {p p' : Page}

theorem pageEntries_append (xs ys : List (Bytes × Node)) (p : Page) :
    pageEntries maxBytes perEntry (xs ++ ys) p = match pageEntries maxBytes perEntry xs p with
      | (false, p) => (false, p)
      | (true, p) => pageEntries maxBytes perEntry ys p := by
  induction xs generalizing p with
  | nil => rfl
  | cons e xs ih =>
    obtain ⟨name, node⟩ := e
    simp only [List.cons_append, pageEntries]
    split_ifs
    · rfl
    · exact ih _

/-- The fuel lasts for all of the entries to come. -/
theorem pageStore_eq {s : PrfsStore} {dir : Node} {ahead : Bytes → List (Bytes × Node)} (h : s.Ahead dir ahead)
    {fuel : Nat} {after : Bytes} (hfuel : (ahead after).length < fuel) (p : Page) :
    pageStore s dir maxBytes perEntry fuel after p = pageEntries maxBytes perEntry (ahead after) p := by
  induction fuel generalizing after p with
  | zero => omega
  | succ fuel ih =>
    rw [pageStore]
    rcases h.next after (show 1 ≤ 512 by decide) with ⟨heof, hents⟩ | ⟨heof, hents, hne⟩
    · rw [hents, heof, Bool.or_true]
      cases hp : pageEntries maxBytes perEntry (ahead after) p with
      | mk all p => cases all <;> rfl
    · have hlen := List.length_pos_iff.mpr hne
      have hempty : (s.readdirPage dir after 512).entries.isEmpty = false := by simpa using hne
      rw [heof, hempty, hents, pageEntries_append]
      cases pageEntries maxBytes perEntry (s.readdirPage dir after 512).entries p with
      | mk all p =>
        cases all with
        | false => rfl
        | true =>
          refine ih ?_ p
          rw [hents, List.length_append] at hfuel
          omega

/-- The entry listed for a name of the store. -/
def entOf (e : Bytes × Node) : DirEnt := ⟨e.1, nameCookie e.1, e.2⟩

/-- What entries are taken of those to come. -/
theorem pageEntries_ents (es : List (Bytes × Node)) (p : Page) :
    ∃ rest, p.ents ++ es.map entOf = (pageEntries maxBytes perEntry es p).2.ents ++ rest ∧
      ((pageEntries maxBytes perEntry es p).1 = true ↔ rest = []) := by
  induction es generalizing p with
  | nil => exact ⟨[], rfl, by simp [pageEntries]⟩
  | cons e es ih =>
    obtain ⟨name, node⟩ := e
    rw [pageEntries]
    split_ifs
    · exact ⟨_, rfl, by simp⟩
    · obtain ⟨rest, hents, hall⟩ := ih { p.push perEntry ⟨name, nameCookie name, node⟩ with
        ckName := rememberCookie p.ckName (nameCookie name) name }
      refine ⟨rest, ?_, hall⟩
      rw [← hents]
      simp [Page.push, entOf]

/-- A page filled further: what it held is there, and what the cache gained is of its entries. -/
structure Page.Grows (p p' : Page) : Prop where
  ents : ∀ e ∈ p.ents, e ∈ p'.ents
  cache : ∀ ck n, p'.ckName.get ck = some n →
    p.ckName.get ck = some n ∨ nameCookie n = ck ∧ ∃ e ∈ p'.ents, e.name = n ∧ e.cookie = ck

theorem Page.Grows.refl : Page.Grows p p := ⟨fun _ he => he, fun _ _ h => Or.inl h⟩

theorem Page.Grows.trans {q : Page} (h : Page.Grows p q) (h' : Page.Grows q p') : Page.Grows p p' := by
  refine ⟨fun e he => h'.ents e (h.ents e he), fun ck n hn => ?_⟩
  rcases h'.cache ck n hn with hq | hq
  · rcases h.cache ck n hq with hp | ⟨hck, e, he, hname⟩
    · exact Or.inl hp
    · exact Or.inr ⟨hck, e, h'.ents e he, hname⟩
  · exact Or.inr hq

theorem rememberCookie_get {m : OrdMap UInt64 Bytes} {ck j : UInt64} {name n : Bytes}
    (h : (rememberCookie m ck name).get j = some n) : j = ck ∧ n = name ∨ m.get j = some n := by
  unfold rememberCookie at h
  rw [OrdMap.get_put] at h
  split_ifs at h with hj hfull
  · exact Or.inl ⟨hj, (Option.some.inj h).symm⟩
  · simp at h
  · exact Or.inr h

theorem pageEntries_grows (es : List (Bytes × Node)) (p : Page) : p.Grows (pageEntries maxBytes perEntry es p).2 := by
  induction es generalizing p with
  | nil => exact .refl
  | cons e es ih =>
    obtain ⟨name, node⟩ := e
    rw [pageEntries]
    split_ifs
    · exact .refl
    · refine Page.Grows.trans ⟨fun e he => by simp [Page.push, he], fun ck n hn => ?_⟩ (ih _)
      rcases rememberCookie_get hn with ⟨rfl, rfl⟩ | hn
      · exact Or.inr ⟨rfl, ⟨n, nameCookie n, node⟩, by simp [Page.push], rfl, rfl⟩
      · exact Or.inl hn

theorem pageStore_grows (s : PrfsStore) (dir : Node) (fuel : Nat) (after : Bytes) (p : Page) :
    p.Grows (pageStore s dir maxBytes perEntry fuel after p).2 := by
  induction fuel generalizing after p with
  | zero => exact .refl
  | succ fuel ih =>
    rw [pageStore]
    have hp : p.Grows (pageEntries maxBytes perEntry (s.readdirPage dir after 512).entries p).2 :=
      pageEntries_grows ..
    split
    · next heq => rwa [heq] at hp
    · next heq =>
      rw [heq] at hp
      split_ifs
      · exact hp
      · exact hp.trans (ih _ _)

theorem nameCookie_ne {ck : UInt64} (h : ck &&& CK_ENTRY = 0) (name : Bytes) : nameCookie name ≠ ck := by
  rintro rfl
  rw [nameCookie_entry] at h
  exact absurd h (by decide)

theorem nameCookie_not_lt (name : Bytes) : ¬ nameCookie name < CK_DOTDOT := by
  intro h
  rcases lt_two h with h | h
  · exact nameCookie_ne (by decide) name h
  · exact nameCookie_ne (by decide) name h

/-- The place of an entry in a listing: ".", "..", then the names of the store. -/
def DirEnt.rank (e : DirEnt) : WithBot Bytes :=
  if e.cookie = CK_DOT then ⊥ else if e.cookie = CK_DOTDOT then (([] : Bytes) : WithBot Bytes) else e.name

/-- The whole listing of a directory. -/
def wholeDir (fs : PrfsStore) (dir : Node) : List DirEnt :=
  ⟨dot, CK_DOT, dir⟩ :: ⟨dotdot, CK_DOTDOT, firstParent fs dir⟩ :: (fs.readdir dir).map entOf

theorem rank_dot (n : Node) : DirEnt.rank ⟨dot, CK_DOT, n⟩ = ⊥ := rfl

theorem rank_dotdot (n : Node) : DirEnt.rank ⟨dotdot, CK_DOTDOT, n⟩ = (([] : Bytes) : WithBot Bytes) := rfl

theorem rank_entOf (e : Bytes × Node) : (entOf e).rank = (e.1 : WithBot Bytes) := by
  have hdot : (entOf e).cookie ≠ CK_DOT := nameCookie_ne (by decide) e.1
  have hdotdot : (entOf e).cookie ≠ CK_DOTDOT := nameCookie_ne (by decide) e.1
  rw [DirEnt.rank, if_neg hdot, if_neg hdotdot]
  rfl

section Listing

variable {s : PrfsStore} {dir : Node}

theorem wholeDir_sorted (hd : isSnapDir dir.id = false) (hne : ∀ e ∈ s.readdir dir, e.1 ≠ []) :
    (wholeDir s dir).Pairwise (fun a b => a.rank < b.rank) := by
  have hpos : ∀ e ∈ s.readdir dir, ([] : Bytes) < e.1 := fun e he => lt_of_le_of_ne (nil_le_list _) (hne e he).symm
  refine List.pairwise_cons.mpr ⟨fun e he => ?_, List.pairwise_cons.mpr ⟨fun e he => ?_, ?_⟩⟩
  · rw [rank_dot, bot_lt_iff_ne_bot]
    rcases List.mem_cons.mp he with rfl | he
    · exact WithBot.coe_ne_bot
    · obtain ⟨x, -, rfl⟩ := List.mem_map.mp he
      rw [rank_entOf]
      exact WithBot.coe_ne_bot
  · obtain ⟨x, hx, rfl⟩ := List.mem_map.mp he
    rw [rank_dotdot, rank_entOf, WithBot.coe_lt_coe]
    exact hpos x hx
  · refine List.pairwise_map.mpr ((s.readdir_sorted hd).imp fun {a b} hab => ?_)
    rw [rank_entOf, rank_entOf, WithBot.coe_lt_coe]
    exact hab

/-- What comes after a name. -/
theorem wholeDir_after (after : Bytes) : toCome DirEnt.rank (after : WithBot Bytes) (wholeDir s dir) =
    ((s.readdir dir).filter (fun e => after < e.1)).map entOf := by
  rw [wholeDir, toCome_cons_of_le (by rw [rank_dot, WithBot.coe_le_coe]; exact bot_le),
    toCome_cons_of_le (by rw [rank_dotdot, WithBot.coe_le_coe, WithBot.coe_le_coe]; exact nil_le_list after)]
  refine toCome_map fun e => ?_
  rw [rank_entOf, WithBot.coe_lt_coe, WithBot.coe_lt_coe, decide_eq_true_eq]

theorem wholeDir_after_dot : toCome DirEnt.rank (⊥ : WithBot Bytes) (wholeDir s dir) =
    ⟨dotdot, CK_DOTDOT, firstParent s dir⟩ :: (s.readdir dir).map entOf := by
  rw [wholeDir, toCome_cons_of_le (by rw [rank_dot])]
  refine toCome_eq_self fun e he => ?_
  rcases List.mem_cons.mp he with rfl | he
  · rw [rank_dotdot]
    simp
  · obtain ⟨x, -, rfl⟩ := List.mem_map.mp he
    rw [rank_entOf]
    simp

/-- A reply gives the first of the entries to come, and its flag tells whether these are all. -/
def Serves (todo : List DirEnt) (r : Bool × Page) : Prop :=
  ∃ rest, todo = r.2.ents ++ rest ∧ (r.1 = true ↔ rest = [])

theorem ahead_length_lt (after : Bytes) :
    ((s.readdir dir).filter (fun e => after < e.1)).length < pageFuel s dir :=
  Nat.lt_succ_of_le (List.length_filter_le ..)

theorem pageStore_serves (hd : isSnapDir dir.id = false) (after : Bytes) (p : Page) :
    Serves (p.ents ++ toCome DirEnt.rank (after : WithBot Bytes) (wholeDir s dir))
      (pageStore s dir maxBytes perEntry (pageFuel s dir) after p) := by
  rw [wholeDir_after, pageStore_eq (s.ahead_names hd) (ahead_length_lt after)]
  exact pageEntries_ents ..

variable {v : NfsV3} {L : Set Bytes} {cookie : UInt64} {cur : WithBot (WithBot Bytes)}

/-- A cookie stands for the place after the entry it was given with. -/
inductive At (L : Set Bytes) : UInt64 → WithBot (WithBot Bytes) → Prop
  | start : At L 0 ⊥
  | dot : At L CK_DOT ((⊥ : WithBot Bytes) : WithBot (WithBot Bytes))
  | dotdot : At L CK_DOTDOT ((([] : Bytes) : WithBot Bytes) : WithBot (WithBot Bytes))
  | entry {n : Bytes} : n ∈ L → At L (nameCookie n) ((n : WithBot Bytes) : WithBot (WithBot Bytes))

/-- The cache holds names of `L` under their cookies. -/
def CacheOf (L : Set Bytes) (m : OrdMap UInt64 Bytes) : Prop := ∀ ck n, m.get ck = some n → n ∈ L ∧ nameCookie n = ck

/-- The names of the directory are of `L`. -/
def NamesIn (L : Set Bytes) (fs : PrfsStore) (dir : Node) : Prop := ∀ e ∈ fs.readdir dir, e.1 ∈ L

/-- The cookie of a name resumes after that name, unless the name is neither in the cache nor in the directory. -/
theorem resumeName_spec (hinj : Set.InjOn nameCookie L) (hempty : [] ∉ L) (hd : isSnapDir dir.id = false)
    (hcache : CacheOf L v.ckName) (hnames : NamesIn L v.fs dir) {n : Bytes} (hn : n ∈ L) :
    resumeName v.ckName v.fs dir (nameCookie n) = some n ∨
      resumeName v.ckName v.fs dir (nameCookie n) = none ∧ v.ckName.get (nameCookie n) = none ∧
        ∀ e ∈ v.fs.readdir dir, e.1 ≠ n := by
  unfold resumeName
  cases hget : v.ckName.get (nameCookie n) with
  | some m =>
    obtain ⟨hm, hck⟩ := hcache _ _ hget
    exact Or.inl (congrArg some (hinj hm hn hck))
  | none =>
    dsimp only
    rw [(v.fs.ahead_names hd).resumeLoop_eq (nameCookie n) (ahead_length_lt [])]
    cases hfind : ((v.fs.readdir dir).filter (fun e => [] < e.1)).find? (fun e => nameCookie e.1 = nameCookie n) with
    | some e =>
      have hmem := hnames e (List.mem_of_mem_filter (List.mem_of_find?_eq_some hfind))
      have hck : nameCookie e.1 = nameCookie n := by simpa using List.find?_some hfind
      exact Or.inl (congrArg some (hinj hmem hn hck))
    | none =>
      refine Or.inr ⟨rfl, rfl, ?_⟩
      rintro e he rfl
      have hpos : [] < e.1 := lt_of_le_of_ne (nil_le_list _) fun h => hempty (h ▸ hnames e he)
      have hno := List.find?_eq_none.mp hfind e (List.mem_filter.mpr ⟨he, by simpa using hpos⟩)
      simp at hno

theorem pageDir_serves (maxBytes perEntry : Nat) (hinj : Set.InjOn nameCookie L) (hempty : [] ∉ L)
    (hd : isSnapDir dir.id = false) (hcache : CacheOf L v.ckName) (hnames : NamesIn L v.fs dir) (h : At L cookie cur) :
    (∃ r, pageDir v dir cookie maxBytes perEntry = some r ∧ Serves (toCome DirEnt.rank cur (wholeDir v.fs dir)) r) ∨
      pageDir v dir cookie maxBytes perEntry = none ∧ v.ckName.get cookie = none ∧
        ∃ n ∈ L, nameCookie n = cookie ∧ ∀ e ∈ v.fs.readdir dir, e.1 ≠ n := by
  have hpos : ∀ e ∈ v.fs.readdir dir, decide ([] < e.1) = true :=
    fun e he => decide_eq_true (lt_of_le_of_ne (nil_le_list _) fun h => hempty (h ▸ hnames e he))
  have hnil : toCome DirEnt.rank (([] : Bytes) : WithBot Bytes) (wholeDir v.fs dir) = (v.fs.readdir dir).map entOf := by
    rw [wholeDir_after, List.filter_eq_self.mpr hpos]
  have hstart : ∀ (p : Page) (todo : List DirEnt), p.ents ++ (v.fs.readdir dir).map entOf = todo →
      Serves todo (pageStore v.fs dir maxBytes perEntry (pageFuel v.fs dir) [] p) := by
    rintro p todo rfl
    rw [← hnil]
    exact pageStore_serves hd [] p
  cases h with
  | start =>
    rw [toCome_bot]
    refine Or.inl ?_
    simp only [pageDir, show (0 : UInt64) < CK_DOT by decide, show (0 : UInt64) < CK_DOTDOT by decide,
      show (0 : UInt64) &&& CK_ENTRY = 0 by decide, decide_true, Bool.true_and, if_true, ne_eq, not_true, if_false]
    split_ifs with hfit hfit'
    · exact ⟨_, rfl, _, rfl, by simp⟩
    · exact ⟨_, rfl, _, rfl, by simp⟩
    · exact ⟨_, rfl, hstart _ _ rfl⟩
  | dot =>
    rw [wholeDir_after_dot]
    refine Or.inl ?_
    simp only [pageDir, show ¬ CK_DOT < CK_DOT by decide, show CK_DOT < CK_DOTDOT by decide,
      show CK_DOT &&& CK_ENTRY = 0 by decide, decide_false, decide_true, Bool.false_and, Bool.true_and, if_true, if_false,
      Bool.false_eq_true, ne_eq, not_true]
    split_ifs with hfit
    · exact ⟨_, rfl, _, rfl, by simp⟩
    · exact ⟨_, rfl, hstart _ _ rfl⟩
  | dotdot =>
    rw [hnil]
    refine Or.inl ?_
    simp only [pageDir, show ¬ CK_DOTDOT < CK_DOT by decide, show ¬ CK_DOTDOT < CK_DOTDOT by decide,
      show CK_DOTDOT &&& CK_ENTRY = 0 by decide, decide_false, Bool.false_and, if_false, Bool.false_eq_true, ne_eq,
      not_true]
    exact ⟨_, rfl, hstart _ _ rfl⟩
  | @entry n hn =>
    have hdot : ¬ nameCookie n < CK_DOT := fun h => nameCookie_not_lt n (lt_trans h (by decide))
    have hentry := nameCookie_tagged n
    simp only [pageDir, hdot, nameCookie_not_lt, decide_false, Bool.false_and, if_false, Bool.false_eq_true, ne_eq, hentry,
      not_false_eq_true, if_true]
    rcases resumeName_spec hinj hempty hd hcache hnames hn with hres | ⟨hres, hget, hgone⟩
    · rw [hres]
      exact Or.inl ⟨_, rfl, pageStore_serves hd n { ckName := v.ckName }⟩
    · rw [hres]
      exact Or.inr ⟨rfl, hget, n, hn, rfl, hgone⟩

theorem pageDir_grows {r : Bool × Page} (h : pageDir v dir cookie maxBytes perEntry = some r) :
    Page.Grows { ckName := v.ckName } r.2 := by
  have hpush : ∀ (p : Page) (c : Prop) [Decidable c] e, p.Grows (if c then p.push perEntry e else p) := by
    intro p c _ e
    split_ifs
    · exact ⟨fun e he => by simp [Page.push, he], fun ck n hn => Or.inl hn⟩
    · exact .refl
  have hdot := hpush { ckName := v.ckName } (cookie < CK_DOT) ⟨dot, CK_DOT, dir⟩
  unfold pageDir at h
  dsimp only at h
  generalize (if cookie < CK_DOT then _ else _ : Page) = p at h hdot
  have hdotdot := hpush p (cookie < CK_DOTDOT) ⟨dotdot, CK_DOTDOT, firstParent v.fs dir⟩
  generalize (if cookie < CK_DOTDOT then _ else _ : Page) = q at h hdotdot
  split_ifs at h
  · cases h
    exact .refl
  · cases h
    exact hdot
  · obtain ⟨after, -, rfl⟩ := Option.map_eq_some_iff.mp h
    exact hdot.trans (hdotdot.trans (pageStore_grows ..))
  · cases h
    exact hdot.trans (hdotdot.trans (pageStore_grows ..))

theorem mem_wholeDir {e : DirEnt} : e ∈ wholeDir s dir ↔ e = ⟨dot, CK_DOT, dir⟩ ∨
    e = ⟨dotdot, CK_DOTDOT, firstParent s dir⟩ ∨ ∃ x ∈ s.readdir dir, e = entOf x := by
  simp only [wholeDir, List.mem_cons, List.mem_map, eq_comm]

/-- The entry that a tagged cookie of a listing is of. -/
theorem mem_wholeDir_entry {e : DirEnt} (he : e ∈ wholeDir s dir) (hck : e.cookie &&& CK_ENTRY ≠ 0) :
    ∃ x ∈ s.readdir dir, e = entOf x := by
  rcases mem_wholeDir.mp he with rfl | rfl | hx
  · exact absurd (show CK_DOT &&& CK_ENTRY = 0 by decide) hck
  · exact absurd (show CK_DOTDOT &&& CK_ENTRY = 0 by decide) hck
  · exact hx

/-- The cookie given with an entry stands for its place. -/
theorem at_rank (hnames : NamesIn L s dir) {e : DirEnt} (he : e ∈ wholeDir s dir) : At L e.cookie e.rank := by
  rcases mem_wholeDir.mp he with rfl | rfl | ⟨x, hx, rfl⟩
  · exact .dot
  · exact .dotdot
  · rw [rank_entOf]
    exact .entry (hnames x hx)

theorem CacheOf.grows {m : OrdMap UInt64 Bytes} (h : CacheOf L m) (hp : Page.Grows { ckName := m } p)
    (hents : ∀ e ∈ p.ents, e.cookie &&& CK_ENTRY ≠ 0 → e.name ∈ L) : CacheOf L p.ckName := by
  intro ck n hn
  rcases hp.cache ck n hn with hm | ⟨rfl, e, he, rfl, hck⟩
  · exact h ck n hm
  · refine ⟨hents e he ?_, rfl⟩
    rw [hck, nameCookie_entry]
    decide

end Listing

/-- What happens at the service between two calls of a scan: the store changes, other directories or pages are listed,
whose names are of `L`, and the cache loses entries. -/
inductive Traffic (L : Set Bytes) (v : NfsV3) : NfsV3 → Prop
  | refl : Traffic L v v
  | change {w : NfsV3} (fs : PrfsStore) : Traffic L v w → Traffic L v { w with fs }
  | list {w : NfsV3} {dir : Node} {cookie : UInt64} {maxBytes perEntry : Nat} {r : Bool × Page} : Traffic L v w →
      pageDir w dir cookie maxBytes perEntry = some r → (∀ e ∈ r.2.ents, e.cookie &&& CK_ENTRY ≠ 0 → e.name ∈ L) →
      Traffic L v { w with ckName := r.2.ckName }
  | evict {w : NfsV3} {ckName : OrdMap UInt64 Bytes} : Traffic L v w →
      (∀ ck n, ckName.get ck = some n → w.ckName.get ck = some n) → Traffic L v { w with ckName }

/-- One page of a scan: the store it is read from and its entries. -/
structure ListCall where
  fs : PrfsStore
  ents : List DirEnt

/-- The pages a client has got of a directory, starting at cookie 0 and going on with the cookie of the last entry;
what it has not got is told by the service and the cookie. -/
inductive CookieScan (L : Set Bytes) (dir : Node) : NfsV3 → UInt64 → List ListCall → Prop
  | start {fs : PrfsStore} {v : NfsV3} : Traffic L { fs } v → CookieScan L dir v 0 []
  | page {v w : NfsV3} {cookie : UInt64} {calls : List ListCall} {maxBytes perEntry : Nat} {p : Page} {e : DirEnt} :
      CookieScan L dir v cookie calls → Traffic L v w → NamesIn L w.fs dir →
      pageDir w dir cookie maxBytes perEntry = some (false, p) → p.ents.getLast? = some e →
      CookieScan L dir { w with ckName := p.ckName } e.cookie (calls ++ [⟨w.fs, p.ents⟩])

/-- The entries a client has received. -/
def received (calls : List ListCall) : List DirEnt := calls.flatMap ListCall.ents

section Exactly

variable {L : Set Bytes} {dir : Node} {v w : NfsV3} {cookie : UInt64} {calls : List ListCall}

theorem Traffic.cacheOf (h : Traffic L v w) (hv : CacheOf L v.ckName) : CacheOf L w.ckName := by
  induction h with
  | refl => exact hv
  | change fs _ ih => exact ih
  | list _ hpage hents ih => exact ih.grows (pageDir_grows hpage) hents
  | evict _ hsub ih => exact fun ck n hn => ih ck n (hsub ck n hn)

def visits (dir : Node) (calls : List ListCall) : List (Visit DirEnt) :=
  calls.map (fun call => ⟨wholeDir call.fs dir, call.ents⟩)

theorem visits_append (fs : PrfsStore) (ents : List DirEnt) :
    visits dir (calls ++ [⟨fs, ents⟩]) = visits dir calls ++ [⟨wholeDir fs dir, ents⟩] := by
  simp [visits]

theorem gathered_visits : gathered (visits dir calls) = received calls := by
  simp [gathered, received, visits, List.flatMap_map]

/-- A scan by cookies is a scan of the whole listing in its order. -/
theorem CookieScan.scanned (hinj : Set.InjOn nameCookie L) (hempty : [] ∉ L) (hd : isSnapDir dir.id = false)
    (h : CookieScan L dir v cookie calls) :
    CacheOf L v.ckName ∧ ∃ cur, At L cookie cur ∧ Scanned DirEnt.rank cur (visits dir calls) := by
  induction h with
  | start ht => exact ⟨ht.cacheOf fun ck n hn => absurd hn (by simp), ⊥, .start, .start⟩
  | @page v w cookie calls maxBytes perEntry p e _ ht hnames hpage hlast ih =>
    obtain ⟨hcache, cur, hat, hscan⟩ := ih
    have hw := ht.cacheOf hcache
    rcases pageDir_serves maxBytes perEntry hinj hempty hd hw hnames hat with ⟨r, hr, rest, hsplit, -⟩ | ⟨hr, -⟩
    · cases hpage.symm.trans hr
      have hmem : ∀ e ∈ p.ents, e ∈ wholeDir w.fs dir := by
        intro e he
        have hcome : e ∈ toCome DirEnt.rank cur (wholeDir w.fs dir) := by
          rw [hsplit]
          exact List.mem_append_left _ he
        exact (mem_toCome.mp hcome).1
      refine ⟨hw.grows (pageDir_grows hpage) fun e he hck => ?_, e.rank, ?_, ?_⟩
      · obtain ⟨x, hx, rfl⟩ := mem_wholeDir_entry (hmem e he) hck
        exact hnames x hx
      · exact at_rank hnames (hmem e (List.mem_of_getLast? hlast))
      · rw [visits_append]
        refine hscan.visit (wholeDir_sorted hd fun x hx h => hempty (h ▸ hnames x hx)) hsplit hlast
    · cases hpage.symm.trans hr

theorem CookieScan.names (h : CookieScan L dir v cookie calls) : ∀ call ∈ calls, NamesIn L call.fs dir := by
  induction h with
  | start => simp
  | page _ _ hnames _ _ ih =>
    intro call hc
    rcases List.mem_append.mp hc with hc | hc
    · exact ih call hc
    · rw [List.mem_singleton.mp hc]
      exact hnames

/-- The cookie of a scan is 0 or that of an entry it has received. -/
theorem CookieScan.cookie_of (h : CookieScan L dir v cookie calls) :
    cookie = 0 ∨ ∃ call ∈ calls, ∃ e ∈ call.ents, e.cookie = cookie := by
  cases h with
  | start => exact Or.inl rfl
  | @page v w cookie calls maxBytes perEntry p e _ _ _ _ hlast =>
    exact Or.inr ⟨⟨w.fs, p.ents⟩, by simp, e, List.mem_of_getLast? hlast, rfl⟩

/-- What a scan that is through has received: ".", "..", then names in order, no name twice, and each entry that was there
at every call once. -/
def Exactly (dir : Node) (calls : List ListCall) : Prop :=
  ∃ names, (received calls).map DirEnt.name = dot :: dotdot :: names ∧ names.Pairwise (· < ·) ∧
    ((received calls).map DirEnt.name).Nodup ∧
    ∀ e, (∀ call ∈ calls, e ∈ call.fs.readdir dir) → (received calls).count (entOf e) = 1

/-- A listing in the order of ranks that holds "." and "..". -/
theorem names_of_ranks {l : List DirEnt} (hempty : [] ∉ L) (hs : l.Pairwise (fun a b => a.rank < b.rank))
    (hmem : ∀ e ∈ l, ∃ fs, NamesIn L fs dir ∧ e ∈ wholeDir fs dir) (hdot : ∃ e ∈ l, e.rank = ⊥)
    (hdotdot : ∃ e ∈ l, e.rank = (([] : Bytes) : WithBot Bytes)) :
    ∃ names, l.map DirEnt.name = dot :: dotdot :: names ∧ names.Pairwise (· < ·) ∧ ∀ n ∈ names, n ∈ L := by
  obtain ⟨a, tl, rfl, ha⟩ := head_least hs hdot fun _ _ => bot_le
  obtain ⟨hatl, htl⟩ := List.pairwise_cons.mp hs
  have hge : ∀ e ∈ tl, (([] : Bytes) : WithBot Bytes) ≤ e.rank := by
    intro e he
    have hpos := hatl e he
    rw [ha, bot_lt_iff_ne_bot] at hpos
    obtain ⟨n, hn⟩ := WithBot.ne_bot_iff_exists.mp hpos
    rw [← hn, WithBot.coe_le_coe]
    exact nil_le_list n
  have hdd : ∃ e ∈ tl, e.rank = (([] : Bytes) : WithBot Bytes) := by
    obtain ⟨e, he, hrank⟩ := hdotdot
    rcases List.mem_cons.mp he with rfl | he
    · rw [ha] at hrank
      exact absurd hrank.symm WithBot.coe_ne_bot
    · exact ⟨e, he, hrank⟩
  obtain ⟨b, names, rfl, hb⟩ := head_least htl hdd hge
  obtain ⟨hbnames, hnames⟩ := List.pairwise_cons.mp htl
  have hna : a.name = dot := by
    obtain ⟨fs, hin, he⟩ := hmem a (by simp)
    rcases mem_wholeDir.mp he with rfl | rfl | ⟨x, hx, rfl⟩
    · rfl
    · exact absurd ha WithBot.coe_ne_bot
    · rw [rank_entOf] at ha
      exact absurd ha WithBot.coe_ne_bot
  have hnb : b.name = dotdot := by
    obtain ⟨fs, hin, he⟩ := hmem b (by simp)
    rcases mem_wholeDir.mp he with rfl | rfl | ⟨x, hx, rfl⟩
    · exact absurd hb.symm WithBot.coe_ne_bot
    · rfl
    · rw [rank_entOf, WithBot.coe_inj] at hb
      exact absurd (hin x hx) (hb ▸ hempty)
  have hentry : ∀ e ∈ names, e.rank = (e.name : WithBot Bytes) ∧ e.name ∈ L := by
    intro e he
    have hgt := hbnames e he
    rw [hb] at hgt
    obtain ⟨fs, hin, hwhole⟩ := hmem e (by simp [he])
    rcases mem_wholeDir.mp hwhole with rfl | rfl | ⟨x, hx, rfl⟩
    · exact absurd hgt not_lt_bot
    · exact absurd hgt (lt_irrefl _)
    · exact ⟨rank_entOf x, hin x hx⟩
  refine ⟨names.map DirEnt.name, by simp [hna, hnb], ?_, ?_⟩
  · refine List.pairwise_map.mpr (hnames.imp_of_mem fun {x y} hx hy hxy => ?_)
    rwa [(hentry x hx).1, (hentry y hy).1, WithBot.coe_lt_coe] at hxy
  · intro n hn
    obtain ⟨e, he, rfl⟩ := List.mem_map.mp hn
    exact (hentry e he).2

variable {maxBytes perEntry : Nat} {p : Page}

theorem CookieScan.refuse (hinj : Set.InjOn nameCookie L) (hempty : [] ∉ L) (hd : isSnapDir dir.id = false)
    (h : CookieScan L dir v cookie calls) (ht : Traffic L v w) (hnames : NamesIn L w.fs dir)
    (hpage : pageDir w dir cookie maxBytes perEntry = none) :
    ∃ call ∈ calls, ∃ e ∈ call.fs.readdir dir, entOf e ∈ call.ents ∧ nameCookie e.1 = cookie ∧
      w.ckName.get cookie = none ∧ ∀ e' ∈ w.fs.readdir dir, e'.1 ≠ e.1 := by
  obtain ⟨hcache, cur, hat, hscan⟩ := h.scanned hinj hempty hd
  rcases pageDir_serves maxBytes perEntry hinj hempty hd (ht.cacheOf hcache) hnames hat with
    ⟨r, hr, -⟩ | ⟨-, hget, n, hn, hck, hgone⟩
  · cases hpage.symm.trans hr
  · rcases h.cookie_of with rfl | ⟨call, hc, e, he, rfl⟩
    · exact absurd hck (nameCookie_ne (by decide) n)
    · have hwhole : e ∈ wholeDir call.fs dir := hscan.got_mem _ (List.mem_map.mpr ⟨call, hc, rfl⟩) e he
      obtain ⟨x, hx, rfl⟩ := mem_wholeDir_entry hwhole (by rw [← hck, nameCookie_entry]; decide)
      have hxn : x.1 = n := hinj (h.names call hc x hx) hn hck.symm
      exact ⟨call, hc, x, hx, he, rfl, hget, by rwa [hxn]⟩

theorem CookieScan.finish (hinj : Set.InjOn nameCookie L) (hL : [] ∉ L ∧ dot ∉ L ∧ dotdot ∉ L)
    (hd : isSnapDir dir.id = false) (h : CookieScan L dir v cookie calls) (ht : Traffic L v w)
    (hnames : NamesIn L w.fs dir) (hpage : pageDir w dir cookie maxBytes perEntry = some (true, p)) :
    Exactly dir (calls ++ [⟨w.fs, p.ents⟩]) := by
  obtain ⟨hcache, cur, hat, hscan⟩ := h.scanned hinj hL.1 hd
  obtain ⟨r, hr, rest, hsplit, hall⟩ := (pageDir_serves maxBytes perEntry hinj hL.1 hd (ht.cacheOf hcache) hnames
    hat).resolve_right fun hnone => by rw [hpage] at hnone; cases hnone.1
  cases hpage.symm.trans hr
  rw [hall.mp rfl, List.append_nil] at hsplit
  have hsorted := wholeDir_sorted hd fun x hx h => hL.1 (h ▸ hnames x hx)
  obtain ⟨hs, hmeets⟩ := hscan.finish hsorted hsplit
  rw [← visits_append, gathered_visits] at hs hmeets
  have hmem : ∀ e ∈ received (calls ++ [⟨w.fs, p.ents⟩]), ∃ fs, NamesIn L fs dir ∧ e ∈ wholeDir fs dir := by
    intro e he
    obtain ⟨call, hc, he⟩ := List.mem_flatMap.mp he
    rcases List.mem_append.mp hc with hc | hc
    · exact ⟨call.fs, h.names call hc, hscan.got_mem _ (List.mem_map.mpr ⟨call, hc, rfl⟩) e he⟩
    · cases List.mem_singleton.mp hc
      have hcome : e ∈ toCome DirEnt.rank cur (wholeDir w.fs dir) := by rwa [hsplit]
      exact ⟨w.fs, hnames, (mem_toCome.mp hcome).1⟩
  have hmeet : ∀ (q : DirEnt → Prop) k, (∀ call ∈ calls ++ [⟨w.fs, p.ents⟩], ∃ e ∈ wholeDir call.fs dir, e.rank = k ∧ q e) →
      ∃ e ∈ received (calls ++ [⟨w.fs, p.ents⟩]), e.rank = k ∧ q e := by
    intro q k hq
    refine hmeets q k fun visit hv => ?_
    obtain ⟨call, hc, rfl⟩ := List.mem_map.mp hv
    exact hq call hc
  have hdot := hmeet (fun _ => True) ⊥ fun call _ => ⟨_, List.mem_cons_self, rank_dot dir, trivial⟩
  have hdotdot := hmeet (fun _ => True) _ fun call _ =>
    ⟨_, List.mem_cons_of_mem _ List.mem_cons_self, rank_dotdot _, trivial⟩
  obtain ⟨names, hmap, hlt, hin⟩ := names_of_ranks hL.1 hs hmem (by simpa using hdot) (by simpa using hdotdot)
  have hnodup : ((received (calls ++ [⟨w.fs, p.ents⟩])).map DirEnt.name).Nodup := by
    rw [hmap, List.nodup_cons, List.nodup_cons]
    refine ⟨fun h => ?_, fun h => hL.2.2 (hin _ h), hlt.imp ne_of_lt⟩
    rcases List.mem_cons.mp h with h | h
    · exact absurd h (by decide)
    · exact hL.2.1 (hin _ h)
  refine ⟨names, hmap, hlt, hnodup, fun e he => List.count_eq_one_of_mem hnodup.of_map ?_⟩
  obtain ⟨e', he', -, rfl⟩ := hmeet (fun e' => e' = entOf e) e.1 fun call hc =>
    ⟨entOf e, mem_wholeDir.mpr (Or.inr (Or.inr ⟨e, he call hc, rfl⟩)), rank_entOf e, rfl⟩
  exact he'

/-- A listing of a directory through the cookies gives every entry that stays once, whatever comes between its pages,
and a cookie is refused only where its entry is gone from the directory and from the cache. -/
theorem cookie_scan_exact (hinj : Set.InjOn nameCookie L) (hL : [] ∉ L ∧ dot ∉ L ∧ dotdot ∉ L)
    (hd : isSnapDir dir.id = false) (h : CookieScan L dir v cookie calls) (ht : Traffic L v w)
    (hnames : NamesIn L w.fs dir) (maxBytes perEntry : Nat) :
    (pageDir w dir cookie maxBytes perEntry = none →
      ∃ call ∈ calls, ∃ e ∈ call.fs.readdir dir, entOf e ∈ call.ents ∧ nameCookie e.1 = cookie ∧
        w.ckName.get cookie = none ∧ ∀ e' ∈ w.fs.readdir dir, e'.1 ≠ e.1) ∧
    ∀ p, pageDir w dir cookie maxBytes perEntry = some (true, p) → Exactly dir (calls ++ [⟨w.fs, p.ents⟩]) :=
  ⟨fun hpage => h.refuse hinj hL.1 hd ht hnames hpage, fun _ hpage => h.finish hinj hL hd ht hnames hpage⟩

/-- A page ends after "a", "b" is taken away and the cache is lost, and the next page goes on to the end. -/
theorem cookie_scan_exact_evicted :
    ∃ first second : List DirEnt, first.map DirEnt.name = [dot, dotdot, [97]] ∧ second.map DirEnt.name = [[99]] ∧
      Exactly ⟨1, LATEST⟩ [⟨PrfsStore.threeNames, first⟩,
        ⟨(PrfsStore.threeNames.exec (.unlink ⟨1, LATEST⟩ [98])).2, second⟩] := by
  have hinj : Set.InjOn nameCookie {[97], [98], [99]} := by
    rintro a (rfl | rfl | rfl) b (rfl | rfl | rfl) h
    all_goals first | rfl | exact absurd h (by decide)
  have hL : ([] : Bytes) ∉ ({[97], [98], [99]} : Set Bytes) ∧ dot ∉ ({[97], [98], [99]} : Set Bytes) ∧
      dotdot ∉ ({[97], [98], [99]} : Set Bytes) := by
    refine ⟨?_, ?_, ?_⟩ <;> rintro (h | h | h) <;> exact absurd h (by decide)
  have hnames : NamesIn {[97], [98], [99]} PrfsStore.threeNames ⟨1, LATEST⟩ := by
    have hlist : ∀ e ∈ PrfsStore.threeNames.readdir ⟨1, LATEST⟩, e.1 = [97] ∨ e.1 = [98] ∨ e.1 = [99] := by decide
    exact hlist
  have hnames' : NamesIn {[97], [98], [99]} (PrfsStore.threeNames.exec (.unlink ⟨1, LATEST⟩ [98])).2 ⟨1, LATEST⟩ := by
    have hlist : ∀ e ∈ (PrfsStore.threeNames.exec (.unlink ⟨1, LATEST⟩ [98])).2.readdir ⟨1, LATEST⟩,
        e.1 = [97] ∨ e.1 = [98] ∨ e.1 = [99] := by decide
    exact hlist
  obtain ⟨⟨eof, p⟩, hpage, hp⟩ : ∃ r, pageDir { fs := PrfsStore.threeNames } ⟨1, LATEST⟩ 0 212 0 = some r ∧
      (r.1, r.2.ents) = (false, [⟨dot, CK_DOT, ⟨1, LATEST⟩⟩, ⟨dotdot, CK_DOTDOT, ⟨1, LATEST⟩⟩,
        entOf ([97], ⟨2, LATEST⟩)]) :=
    Option.map_eq_some_iff.mp (by decide)
  obtain ⟨⟨eof', p'⟩, hpage', hp'⟩ : ∃ r, pageDir { fs := (PrfsStore.threeNames.exec (.unlink ⟨1, LATEST⟩ [98])).2 }
      ⟨1, LATEST⟩ (nameCookie [97]) 4096 0 = some r ∧ (r.1, r.2.ents) = (true, [entOf ([99], ⟨2, LATEST⟩)]) :=
    Option.map_eq_some_iff.mp (by decide)
  obtain ⟨rfl, hents⟩ := Prod.mk.inj hp
  obtain ⟨rfl, hents'⟩ := Prod.mk.inj hp'
  have hscan := CookieScan.page (.start .refl) .refl hnames hpage (by rw [hents]; rfl)
  have hexact := (cookie_scan_exact hinj hL (by decide) hscan ((Traffic.refl.change _).evict (by simp)) hnames' 4096 0).2 p'
    hpage'
  exact ⟨p.ents, p'.ents, by rw [hents]; rfl, by rw [hents']; rfl, hexact⟩

end Exactly

end NfsV3

end Prfs
