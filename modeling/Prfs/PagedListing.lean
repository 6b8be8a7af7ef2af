import Prfs.NodeDiffs
import Prfs.PagedScans
import Mathlib.Data.Nat.Digits.Lemmas

namespace Prfs

/-- What is to come after an entry of a sorted list. -/
theorem filter_after {α β : Type} [LinearOrder β] {f : α → β} {xs ys : List α} {e : α}
    (h : (xs ++ e :: ys).Pairwise (fun a b => f a < f b)) : (xs ++ e :: ys).filter (fun a => f e < f a) = ys := by
  obtain ⟨-, hrest, hbefore⟩ := List.pairwise_append.mp h
  obtain ⟨hafter, -⟩ := List.pairwise_cons.mp hrest
  have hxs : xs.filter (fun a => f e < f a) = [] := by
    rw [List.filter_eq_nil_iff]
    intro a ha
    simpa using le_of_lt (hbefore a ha e (by simp))
  have hys : ys.filter (fun a => f e < f a) = ys := by
    rw [List.filter_eq_self]
    intro a ha
    simpa using hafter a ha
  simp [hxs, hys]

theorem digit_read (d : Nat) (hd : d < 10) :
    ¬ (UInt8.ofNat (48 + d) < 48 ∨ 57 < UInt8.ofNat (48 + d)) ∧ (UInt8.ofNat (48 + d) - 48).toUInt64 = UInt64.ofNat d := by
  revert d
  decide

theorem parse_digits (ds : List Nat) (hd : ∀ d ∈ ds, d < 10) :
    (ds.map (fun d => UInt8.ofNat (48 + d))).reverse.foldl (fun acc c => acc.bind (fun v =>
      if c < 48 ∨ 57 < c then none else some (v * 10 + (c - 48).toUInt64))) (some 0) =
      some (UInt64.ofNat (Nat.ofDigits 10 ds)) := by
  induction ds with
  | nil => rfl
  | cons d ds ih =>
    have hlt : d < 10 := hd d (by simp)
    rw [List.map_cons, List.reverse_cons, List.foldl_append, ih fun d' h => hd d' (List.mem_cons_of_mem _ h)]
    obtain ⟨hrange, hval⟩ := digit_read d hlt
    simp only [List.foldl_cons, List.foldl_nil, Option.bind_some, if_neg hrange, hval, Nat.ofDigits_cons, Option.some.injEq]
    rw [UInt64.ofNat_add, UInt64.ofNat_mul, UInt64.add_comm, UInt64.mul_comm]
    rfl

/-- `std::to_string` writes what `parseSnap` reads. -/
theorem parseSnap_toString (n : SnapId) : parseSnap (toString n) = some n := by
  unfold toString
  split_ifs with hn
  · rw [hn]
    rfl
  · have hne : n.toNat ≠ 0 := fun h => hn (UInt64.toNat_inj.mp h)
    have hdigits : (Nat.digits 10 n.toNat) ≠ [] := Nat.digits_ne_nil_iff_ne_zero.mpr hne
    rw [parseSnap, if_neg (by simpa using hdigits), parse_digits _ fun d hd => Nat.digits_lt_base (by decide) hd,
      Nat.ofDigits_digits, UInt64.ofNat_toNat]

namespace PrfsStore

variable {s : PrfsStore} {dir : Node} {after : Bytes} {max : Nat} {es : List (Bytes × Node)}

/-- The pages of a directory from a cursor to the end, one after the other. -/
inductive Paged (s : PrfsStore) (dir : Node) (max : Nat) : Bytes → List (Bytes × Node) → Prop
  | last {after : Bytes} : (s.readdirPage dir after max).eof = true →
      Paged s dir max after (s.readdirPage dir after max).entries
  | next {after : Bytes} {es : List (Bytes × Node)} : (s.readdirPage dir after max).eof = false →
      Paged s dir max (s.readdirPage dir after max).cookie es →
      Paged s dir max after ((s.readdirPage dir after max).entries ++ es)

/-- The entries that a page after the cursor starts with, and that following pages go on with. -/
structure Ahead (s : PrfsStore) (dir : Node) (ahead : Bytes → List (Bytes × Node)) : Prop where
  page : ∀ after max, s.readdirPage dir after max = pageLoop max (ahead after) {}
  rest : ∀ after xs e ys, ahead after = xs ++ e :: ys → ahead e.1 = ys

/-- A page that is not the last ends where the next one goes on. -/
theorem Ahead.next {ahead : Bytes → List (Bytes × Node)} (h : s.Ahead dir ahead) (after : Bytes) (hmax : 1 ≤ max) :
    let page := s.readdirPage dir after max
    page.eof = true ∧ page.entries = ahead after ∨
      page.eof = false ∧ ahead after = page.entries ++ ahead page.cookie ∧ page.entries ≠ [] := by
  dsimp only
  obtain ⟨hents, hcookie, heof⟩ := pageLoop_spec max (ahead after) {} (by simp) rfl
  rw [← h.page] at hents hcookie heof
  simp only [List.length_nil, Nat.sub_zero, List.nil_append, Nat.add_zero] at hents hcookie heof
  cases he : (s.readdirPage dir after max).eof with
  | true => exact Or.inl ⟨rfl, by rw [hents, List.take_of_length_le (heof.mp he)]⟩
  | false =>
    have hlong : max < (ahead after).length := by
      by_contra hle
      rw [heof.mpr (by omega)] at he
      cases he
    have hne : (ahead after).take max ≠ [] := by
      rw [← List.length_pos_iff, List.length_take]
      omega
    obtain ⟨e, hlast⟩ : ∃ e, ((ahead after).take max).getLast? = some e := ⟨_, List.getLast?_eq_some_getLast hne⟩
    obtain ⟨xs, hxs⟩ := List.getLast?_eq_some_iff.mp hlast
    have hsplit : ahead after = xs ++ e :: (ahead after).drop max := by
      refine (List.take_append_drop max (ahead after)).symm.trans ?_
      rw [hxs, List.append_assoc, List.singleton_append]
    have hck : (s.readdirPage dir after max).cookie = e.1 := by
      rw [hcookie, hlast]
      rfl
    refine Or.inr ⟨rfl, ?_, by rwa [hents]⟩
    rw [hents, hck, h.rest after xs e _ hsplit, List.take_append_drop]

/-- Paging on from a cursor ends, with the entries ahead of it. -/
theorem Ahead.paged_iff {ahead : Bytes → List (Bytes × Node)} (h : s.Ahead dir ahead) (hmax : 1 ≤ max) :
    Paged s dir max after es ↔ es = ahead after := by
  constructor
  · intro hp
    induction hp with
    | last heof =>
      rcases h.next _ hmax with ⟨-, hents⟩ | ⟨hne, -⟩
      · exact hents
      · rw [heof] at hne
        cases hne
    | next heof _ ih =>
      rcases h.next _ hmax with ⟨he, -⟩ | ⟨-, hents, -⟩
      · rw [heof] at he
        cases he
      · rw [ih, hents]
  · rintro rfl
    induction hn : (ahead after).length using Nat.strong_induction_on generalizing after with
    | _ n ih =>
      rcases h.next after hmax with ⟨heof, hents⟩ | ⟨heof, hents, hne⟩
      · rw [← hents]
        exact .last heof
      · rw [hents]
        refine .next heof (ih _ ?_ rfl)
        rw [← hn, hents, List.length_append]
        have := List.length_pos_iff.mpr hne
        omega

theorem readdir_sorted (hd : isSnapDir dir.id = false) : (s.readdir dir).Pairwise (fun a b => a.1 < b.1) := by
  obtain ⟨l, hl, hlist⟩ := s.readdir_eq hd
  rw [hlist]
  exact List.pairwise_map.mpr hl.sorted

theorem ahead_names (hd : isSnapDir dir.id = false) :
    s.Ahead dir (fun after => (s.readdir dir).filter (fun e => after < e.1)) := by
  obtain ⟨l, hl, hlist⟩ := s.readdir_eq hd
  have hsorted := s.readdir_sorted hd
  refine ⟨fun after max => ?_, fun after xs e ys h => ?_⟩
  · obtain ⟨l', hl', hpage⟩ := s.readdirPage_eq hd after max
    rw [hpage, hlist, hl.unique hl', List.filter_map]
    rfl
  · have hmem : e ∈ (s.readdir dir).filter (fun e => after < e.1) := by
      rw [h]
      simp
    have hlt : after < e.1 := by simpa using (List.mem_filter.mp hmem).2
    have hfilter := hsorted.filter (fun e => decide (after < e.1))
    rw [h] at hfilter
    rw [← filter_after hfilter, ← h, List.filter_filter]
    refine List.filter_congr fun a _ => ?_
    rw [Bool.eq_iff_iff]
    simpa using fun h => lt_trans hlt h

/-- Where a page of a synthesized directory starts. -/
def snapStart (after : Bytes) : SnapId := if after.isEmpty then 1 else ((parseSnap after).map (· + 1)).getD 1

theorem snapStart_toString (n : SnapId) : snapStart (toString n) = n + 1 := by
  have hne : (toString n).isEmpty = false := by
    cases hs : toString n with
    | nil =>
      have hp := parseSnap_toString n
      rw [hs] at hp
      cases hp
    | cons c cs => rfl
  rw [snapStart, hne, parseSnap_toString]
  rfl

/-- The snapshots after one of a range. -/
theorem snapRange_after {start stop n : SnapId} (hn : n ∈ snapRange start stop) :
    (snapRange start stop).filter (fun g => n < g) = snapRange (n + 1) stop := by
  obtain ⟨hle, hlt⟩ := mem_snapRange.mp hn
  refine ((snapRange_sorted start stop).filter _).eq_of_mem_iff (snapRange_sorted (n + 1) stop) fun g => ?_
  rw [List.mem_filter, mem_snapRange, mem_snapRange, decide_eq_true_eq]
  have hnext : (n + 1).toNat = n.toNat + 1 := by
    have hstop := stop.toNat_lt
    rw [UInt64.lt_iff_toNat_lt] at hlt
    rw [UInt64.toNat_add, UInt64.toNat_one]
    omega
  simp only [UInt64.lt_iff_toNat_lt, UInt64.le_iff_toNat_le, hnext] at hle ⊢
  omega

theorem ahead_snapshots (hd : isSnapDir dir.id = true) :
    s.Ahead dir (fun after => s.snapEntries (snapBase dir.id) (snapStart after)) := by
  refine ⟨fun after max => ?_, fun after xs e ys h => ?_⟩
  · simp only [readdirPage, hd, if_true, snapStart]
    cases parseSnap after <;> rfl
  · obtain ⟨before, rest, hsplit, -, hrest⟩ := List.map_eq_append_iff.mp h
    obtain ⟨n, gs, rfl, rfl, rfl⟩ := List.map_eq_cons_iff.mp hrest
    have hn : n ∈ (snapRange (snapStart after) s.cur).filter (fun n => s.existedAt (snapBase dir.id) n) := by
      rw [hsplit]
      simp
    have hsorted := (snapRange_sorted (snapStart after) s.cur).filter (fun n => s.existedAt (snapBase dir.id) n)
    rw [hsplit] at hsorted
    have hafter := filter_after (f := id) hsorted
    dsimp only [id_eq] at hafter
    rw [snapStart_toString, snapEntries, ← snapRange_after (List.mem_of_mem_filter hn), List.filter_comm, hsplit, hafter]

/-- The pages of a directory put together are its listing exactly when the empty name, which no cursor is before, is
not bound in it. -/
theorem pages_agree_iff (s : PrfsStore) (dir : Node) (hmax : 1 ≤ max) :
    Paged s dir max [] (s.readdir dir) ↔ s.lookup dir [] = none := by
  cases hd : isSnapDir dir.id with
  | true =>
    rw [(ahead_snapshots hd).paged_iff hmax]
    refine iff_of_true ?_ ?_
    · simp only [readdir, hd, if_true]
      rfl
    · simp only [lookup, hd, if_true]
      rfl
  | false =>
    rw [(ahead_names hd).paged_iff hmax, eq_comm, List.filter_eq_self]
    obtain ⟨l, hl, hlist⟩ := s.readdir_eq hd
    rw [lookup_eq hd (fun h => absurd h.1 (by decide)), Option.map_eq_none_iff, hlist]
    simp only [List.mem_map, forall_exists_index, and_imp, forall_apply_eq_imp_iff₂, decide_eq_true_eq]
    constructor
    · intro hne
      rw [Option.eq_none_iff_forall_ne_some]
      intro c hc
      exact lt_irrefl _ (hne ([], c) ((hl.mem [] c).mpr hc))
    · rintro hnone ⟨n, c⟩ hmem
      refine lt_of_le_of_ne (nil_le_list n) ?_
      rintro rfl
      rw [(hl.mem [] c).mp hmem] at hnone
      cases hnone

/-- Three names, one a page. -/
theorem pages_agree_iff_three :
    Paged threeNames ⟨1, LATEST⟩ 1 [] (threeNames.readdir ⟨1, LATEST⟩) :=
  (pages_agree_iff threeNames ⟨1, LATEST⟩ (by decide)).mpr (by decide)

/-- A file linked under the empty name. -/
def emptyName : PrfsStore := empty.after [.mkfile [], .link ⟨1, LATEST⟩ [] ⟨2, LATEST⟩]

theorem pages_miss_empty_name :
    Run empty emptyName ∧ emptyName.readdir ⟨1, LATEST⟩ = [([], ⟨2, LATEST⟩)] ∧
      ¬ Paged emptyName ⟨1, LATEST⟩ 1 [] (emptyName.readdir ⟨1, LATEST⟩) := by
  have hlist : emptyName.readdir ⟨1, LATEST⟩ = [([], ⟨2, LATEST⟩)] := by decide
  refine ⟨run_after (by decide), hlist, fun h => ?_⟩
  have hahead := ((ahead_names (by decide)).paged_iff (by decide)).mp h
  rw [hlist] at hahead
  exact absurd hahead (by decide)

end PrfsStore

end Prfs
