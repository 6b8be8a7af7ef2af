import Prfs.StoreRuns
import Prfs.StoreReads

namespace Prfs

/-- A page takes what fits of the entries to come, its cookie is the last name it took,
and it is the last page when nothing is left over. -/
theorem pageLoop_spec (max : Nat) (l : List (Bytes × Node)) (page : DirPage) (hp : page.entries.length ≤ max)
    (heof : page.eof = false) :
    (pageLoop max l page).entries = page.entries ++ l.take (max - page.entries.length) ∧
      (pageLoop max l page).cookie =
        (((l.take (max - page.entries.length)).getLast?.map Prod.fst).getD page.cookie) ∧
      ((pageLoop max l page).eof = true ↔ l.length + page.entries.length ≤ max) := by
  induction l generalizing page with
  | nil => simpa [pageLoop] using hp
  | cons e l ih =>
    rw [pageLoop]
    split_ifs with hfull
    · simp [hfull, heof]
    · obtain ⟨k, hk⟩ : ∃ k, max - page.entries.length = k + 1 := ⟨max - page.entries.length - 1, by omega⟩
      obtain ⟨h1, h2, h3⟩ := ih { page with entries := page.entries ++ [e], cookie := e.1 }
        (by simp only [List.length_append, List.length_singleton]; omega) heof
      simp only [List.length_append, List.length_singleton] at h1 h2 h3
      rw [show max - (page.entries.length + 1) = k by omega] at h1 h2
      refine ⟨?_, ?_, ?_⟩
      · rw [h1, hk, List.take_succ_cons, List.append_assoc, List.singleton_append]
      · rw [h2, hk, List.take_succ_cons, List.getLast?_cons]
        cases (l.take k).getLast? <;> rfl
      · rw [h3, List.length_cons]
        omega

theorem pageLoop_page {max : Nat} {l : List (Bytes × Node)} (hl : l.Pairwise (fun a b => a.1 < b.1))
    (hmax : 1 ≤ max) :
    (pageLoop max l {}).entries = l.take max ∧
      ((pageLoop max l {}).eof = false → (pageLoop max l {}).entries.length = max ∧
        ∃ e ∈ (pageLoop max l {}).entries, e.1 = (pageLoop max l {}).cookie) ∧
      ∀ e, e ∈ (pageLoop max l {}).entries ↔
        e ∈ l ∧ ((pageLoop max l {}).eof = false → e.1 ≤ (pageLoop max l {}).cookie) := by
  obtain ⟨hents, hcookie, heof⟩ := pageLoop_spec max l {} (by simp) rfl
  generalize pageLoop max l {} = page at *
  simp only [List.length_nil, Nat.sub_zero, List.nil_append, Nat.add_zero] at hents hcookie heof
  cases he : page.eof with
  | true =>
    rw [hents, List.take_of_length_le (heof.mp he)]
    simp
  | false =>
    have hlong : max < l.length := by
      by_contra hle
      rw [heof.mpr (by omega)] at he
      cases he
    have hne : l.take max ≠ [] := by
      rw [← List.length_pos_iff, List.length_take]
      omega
    obtain ⟨e, hlast⟩ : ∃ e, (l.take max).getLast? = some e := ⟨_, List.getLast?_eq_some_getLast hne⟩
    have hck : page.cookie = e.1 := by rw [hcookie, hlast]; rfl
    have hmem : e ∈ l.take max := List.mem_of_getLast? hlast
    refine ⟨hents, fun _ => ⟨?_, e, hents ▸ hmem, hck.symm⟩, fun x => ?_⟩
    · rw [hents, List.length_take]
      omega
    · rw [hents, hck]
      constructor
      · exact fun hx => ⟨List.mem_of_mem_take hx, fun _ => OrdMap.sorted_getLast? hl.take hlast hx⟩
      · rintro ⟨hx, hle⟩
        rw [← List.take_append_drop max l, List.mem_append] at hx
        rw [← List.take_append_drop max l, List.pairwise_append] at hl
        exact hx.resolve_right fun hdrop => absurd (hl.2.2 e hmem x hdrop) (not_lt.mpr (hle rfl))

/-- One call of a scan: the store it reads, its limit and the page it gets. -/
structure PageCall where
  store : PrfsStore
  max : Nat
  page : DirPage

namespace PrfsStore

/-- A scan of `dir` from a cursor to the end, with operations of any kind before each call. -/
inductive Scan (dir : Node) : PrfsStore → Bytes → List PageCall → Prop
  | last {s t : PrfsStore} {after : Bytes} {max : Nat} : Run s t → 1 ≤ max →
      (t.readdirPage dir after max).eof = true → Scan dir s after [⟨t, max, t.readdirPage dir after max⟩]
  | next {s t : PrfsStore} {after : Bytes} {max : Nat} {calls : List PageCall} : Run s t → 1 ≤ max →
      (t.readdirPage dir after max).eof = false → Scan dir t (t.readdirPage dir after max).cookie calls →
      Scan dir s after (⟨t, max, t.readdirPage dir after max⟩ :: calls)

/-- The entries a scan returns. -/
def returned (calls : List PageCall) : List (Bytes × Node) := calls.flatMap (fun c => c.page.entries)

/-- The name is bound to the child in the live directory at the call. -/
def BoundAt (dir : Node) (call : PageCall) (n : Bytes) (c : UInt64) : Prop :=
  (viewAt call.store.kv call.store.cur).entry dir.id n = some c

/-- What one page of a live directory holds. -/
structure PageOf (dir : Node) (after : Bytes) (call : PageCall) : Prop where
  sorted : call.page.entries.Pairwise (fun a b => a.1 < b.1)
  form : ∀ e ∈ call.page.entries, e.2 = ⟨e.2.id, LATEST⟩
  mem : ∀ n c, (n, ⟨c, LATEST⟩) ∈ call.page.entries ↔
    BoundAt dir call n c ∧ after < n ∧ (call.page.eof = false → n ≤ call.page.cookie)
  full : call.page.eof = false →
    call.page.entries.length = call.max ∧ ∃ e ∈ call.page.entries, e.1 = call.page.cookie

variable {s t : PrfsStore} {dir : Node} {after : Bytes} {max : Nat} {calls : List PageCall}

theorem pageOf_readdirPage (t : PrfsStore) (hd : isSnapDir dir.id = false) (hl : dir.snap = LATEST) (after : Bytes)
    (hmax : 1 ≤ max) : PageOf dir after ⟨t, max, t.readdirPage dir after max⟩ := by
  obtain ⟨l, hlist, hpage⟩ := t.readdirPage_eq hd after max
  rw [hl, rr, if_pos rfl] at hlist
  rw [hl] at hpage
  have hsorted : ((l.filter (fun e => after < e.1)).map (fun e => (e.1, (⟨e.2, LATEST⟩ : Node)))).Pairwise
      (fun a b => a.1 < b.1) := List.pairwise_map.mpr (hlist.sorted.filter _)
  obtain ⟨hents, hfull, hmem⟩ := pageLoop_page hsorted hmax
  rw [← hpage] at hents hfull hmem
  refine ⟨?_, fun e he => ?_, fun n c => ?_, hfull⟩
  · dsimp only
    rw [hents]
    exact hsorted.take
  · obtain ⟨x, -, rfl⟩ := List.mem_map.mp ((hmem e).mp he).1
    rfl
  · rw [BoundAt, ← hlist.mem, hmem, ← and_assoc]
    refine and_congr_left fun _ => ?_
    simp only [List.mem_map, List.mem_filter, Prod.mk.injEq, Node.mk.injEq, and_true, decide_eq_true_eq]
    constructor
    · rintro ⟨⟨n', c'⟩, h, rfl, rfl⟩
      exact h
    · exact fun h => ⟨(n, c), h, rfl, rfl⟩

theorem PageOf.entry {call : PageCall} (h : PageOf dir after call) {e : Bytes × Node} (he : e ∈ call.page.entries) :
    BoundAt dir call e.1 e.2.id ∧ after < e.1 ∧ (call.page.eof = false → e.1 ≤ call.page.cookie) := by
  have hform := h.form e he
  refine (h.mem e.1 e.2.id).mp ?_
  rw [← hform]
  exact he

/-- Each call of a scan gets a page that goes on from the page before. -/
theorem Scan.pages (h : Scan dir s after calls) (hd : isSnapDir dir.id = false) (hl : dir.snap = LATEST) :
    ∀ call ∈ calls, ∃ from', PageOf dir from' call := by
  induction h with
  | last _ hmax _ =>
    rintro call hc
    obtain rfl := List.mem_singleton.mp hc
    exact ⟨_, pageOf_readdirPage _ hd hl _ hmax⟩
  | next _ hmax _ _ ih =>
    rintro call hc
    rcases List.mem_cons.mp hc with rfl | hc
    · exact ⟨_, pageOf_readdirPage _ hd hl _ hmax⟩
    · exact ih call hc

theorem Scan.sorted (h : Scan dir s after calls) (hd : isSnapDir dir.id = false) (hl : dir.snap = LATEST) :
    (returned calls).Pairwise (fun a b => a.1 < b.1) ∧ ∀ e ∈ returned calls, after < e.1 := by
  induction h with
  | @last s t after max _ hmax _ =>
    have hp := pageOf_readdirPage t hd hl after hmax
    simp only [returned, List.flatMap_cons, List.flatMap_nil, List.append_nil]
    exact ⟨hp.sorted, fun e he => (hp.entry he).2.1⟩
  | @next s t after max calls _ hmax heof _ ih =>
    have hp := pageOf_readdirPage t hd hl after hmax
    obtain ⟨hs, hgt⟩ := ih
    obtain ⟨-, last, hlast, hck⟩ := hp.full heof
    have hfwd : after < (t.readdirPage dir after max).cookie := lt_of_lt_of_eq (hp.entry hlast).2.1 hck
    simp only [returned, List.flatMap_cons]
    refine ⟨List.pairwise_append.mpr ⟨hp.sorted, hs, fun a ha b hb => ?_⟩, fun e he => ?_⟩
    · exact lt_of_le_of_lt ((hp.entry ha).2.2 heof) (hgt b hb)
    · rcases List.mem_append.mp he with he | he
      · exact (hp.entry he).2.1
      · exact lt_trans hfwd (hgt e he)

/-- A name bound at every call of a scan is met by the call whose page reaches it. -/
theorem Scan.meets (h : Scan dir s after calls) (hd : isSnapDir dir.id = false) (hl : dir.snap = LATEST)
    {n : Bytes} {c : UInt64} (hn : after < n) (hb : ∀ call ∈ calls, BoundAt dir call n c) :
    (n, ⟨c, LATEST⟩) ∈ returned calls := by
  induction h with
  | @last s t after max _ hmax heof =>
    have hp := pageOf_readdirPage t hd hl after hmax
    simp only [returned, List.flatMap_cons, List.flatMap_nil, List.append_nil]
    refine (hp.mem n c).mpr ⟨hb _ (by simp), hn, fun he => ?_⟩
    rw [heof] at he
    cases he
  | @next s t after max calls _ hmax heof _ ih =>
    have hp := pageOf_readdirPage t hd hl after hmax
    simp only [returned, List.flatMap_cons, List.mem_append]
    rcases le_or_gt n (t.readdirPage dir after max).cookie with hle | hgt
    · exact Or.inl ((hp.mem n c).mpr ⟨hb _ (by simp), hn, fun _ => hle⟩)
    · exact Or.inr (ih hgt fun call hc => hb call (List.mem_cons_of_mem _ hc))

/-- Whatever happens between its calls, a scan of a live directory returns no name twice,
each entry that stays bound once, and only entries bound when they are returned. -/
theorem scan_stable (hs : Run empty s) {dir : Node} (hl : dir.snap = LATEST)
    (hdir : (viewAt s.kv s.cur).IsDir dir.id) {calls : List PageCall} (h : Scan dir s [] calls)
    (hne : ∀ call ∈ calls, ∀ c, ¬ BoundAt dir call [] c) :
    ((returned calls).map Prod.fst).Pairwise (· < ·) ∧
    (∀ n c, (∀ call ∈ calls, BoundAt dir call n c) → (returned calls).count (n, ⟨c, LATEST⟩) = 1) ∧
    ∀ call ∈ calls, (∀ e ∈ call.page.entries, ∃ c, e.2 = ⟨c, LATEST⟩ ∧ BoundAt dir call e.1 c) ∧
      (call.page.eof = false → call.page.entries.length = call.max) := by
  obtain ⟨r, hr, -⟩ := hdir
  have hd := hs.sound.not_isSnapDir hr
  obtain ⟨hsorted, -⟩ := h.sorted hd hl
  refine ⟨List.pairwise_map.mpr hsorted, fun n c hb => ?_, fun call hc => ?_⟩
  · have hcalls : ∃ call, call ∈ calls := by
      cases h with
      | last => exact ⟨_, List.mem_cons_self⟩
      | next => exact ⟨_, List.mem_cons_self⟩
    obtain ⟨call, hcall⟩ := hcalls
    have hn : n ≠ [] := fun he => hne call hcall c (he ▸ hb call hcall)
    have hpos : [] < n := lt_of_le_of_ne (nil_le_list n) (Ne.symm hn)
    exact List.count_eq_one_of_mem (OrdMap.sorted_nodup hsorted) (h.meets hd hl hpos hb)
  · obtain ⟨from', hp⟩ := h.pages hd hl call hc
    exact ⟨fun e he => ⟨e.2.id, hp.form e he, (hp.entry he).1⟩, fun he => (hp.full he).1⟩

/-- Three names of a file in the root. -/
def threeNames : PrfsStore :=
  empty.after [.mkfile [], .link ⟨1, LATEST⟩ [97] ⟨2, LATEST⟩, .link ⟨1, LATEST⟩ [98] ⟨2, LATEST⟩,
    .link ⟨1, LATEST⟩ [99] ⟨2, LATEST⟩]

/-- Two pages of one entry each; the name the second would list is taken away before it. -/
def unlinkScan : List PageCall :=
  let t := (threeNames.exec (.unlink ⟨1, LATEST⟩ [98])).2
  [⟨threeNames, 1, threeNames.readdirPage ⟨1, LATEST⟩ [] 1⟩, ⟨t, 1, t.readdirPage ⟨1, LATEST⟩ [97] 1⟩]

theorem unlinkScan_scan : Scan ⟨1, LATEST⟩ threeNames [] unlinkScan := by
  have hck : (threeNames.readdirPage ⟨1, LATEST⟩ [] 1).cookie = [97] := by decide
  refine .next .refl (by decide) (by decide) ?_
  rw [hck]
  exact .last (Reaches.refl.tail trivial) (by decide) (by decide)

theorem threeNames_isDir : (viewAt threeNames.kv threeNames.cur).IsDir 1 := by
  have hdir : (loadNode threeNames.kv 1 threeNames.cur).any (fun r => r.type = FType.DIR.code) = true := by
    decide
  obtain ⟨r, hr, ht⟩ := (Option.any_eq_true _ _).mp hdir
  exact viewAt_isDir.mpr ⟨r, hr, by simpa using ht⟩

theorem scan_stable_over_unlink : (returned unlinkScan).count ([99], ⟨2, LATEST⟩) = 1 := by
  have hrun : Run empty threeNames := run_after (by decide)
  have hnone : ∀ call ∈ unlinkScan, (viewAt call.store.kv call.store.cur).entry 1 [] = none := by decide
  have hbound : ∀ call ∈ unlinkScan, (viewAt call.store.kv call.store.cur).entry 1 [99] = some 2 := by
    decide
  have hne : ∀ call ∈ unlinkScan, ∀ c, ¬ BoundAt ⟨1, LATEST⟩ call [] c := by
    intro call hc c hb
    rw [BoundAt, hnone call hc] at hb
    cases hb
  exact (scan_stable hrun rfl threeNames_isDir unlinkScan_scan hne).2.1 [99] 2 hbound

end PrfsStore

end Prfs
