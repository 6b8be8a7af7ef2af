import Prfs.ListingPages

namespace Prfs

namespace NfsV4

variable {fs : PrfsStore} {dir : Node} {req : List UInt32} {mx : Nat} {l : Listing} {r : Bool × Listing}

/-- What an entry is counted with. -/
def entryBytes (fs : PrfsStore) (req : List UInt32) (e : Bytes × Node) : Nat :=
  (encodeEntry fs req e.1 e.2).length + 4

/-- Entries as they are written. -/
def wire (fs : PrfsStore) (req : List UInt32) (es : List (Bytes × Node)) : Bytes :=
  es.flatMap (fun e => word 1 ++ encodeEntry fs req e.1 e.2)

theorem wire_length (es : List (Bytes × Node)) : (wire fs req es).length = (es.map (entryBytes fs req)).sum := by
  rw [wire, List.length_flatMap]
  refine congrArg List.sum (List.map_congr_left fun e _ => ?_)
  rw [List.length_append, entryBytes, Nat.add_comm]
  rfl

/-- The listing is the one before with what fits of some entries, and the cache knows where to go on. Of the eight bytes
that an entry is asked to leave, only four are counted with it. -/
structure Listing.Takes (fs : PrfsStore) (req : List UInt32) (mx : Nat) (l : Listing) (es : List (Bytes × Node))
    (r : Bool × Listing) : Prop where
  w : r.2.w.v = l.w.v ++ wire fs req (greedy (entryBytes fs req) mx (l.budget + 4) es)
  all : r.1 = true ↔ greedy (entryBytes fs req) mx (l.budget + 4) es = es
  last : ∀ e, (greedy (entryBytes fs req) mx (l.budget + 4) es).getLast? = some e →
    r.2.ckName.get (nameCookie e.1) = some e.1
  same : greedy (entryBytes fs req) mx (l.budget + 4) es = [] → r.2 = l

theorem listEntries_takes (es : List (Bytes × Node)) (l : Listing) :
    l.Takes fs req mx es (listEntries fs req mx es l) := by
  induction es generalizing l with
  | nil =>
    refine ⟨(List.append_nil _).symm, by simp [listEntries, greedy], fun e he => ?_, fun _ => rfl⟩
    cases he
  | cons e es ih =>
    obtain ⟨name, node⟩ := e
    rw [listEntries]
    by_cases hfull : mx < l.budget + (encodeEntry fs req name node).length + 8
    · have hno : ¬ l.budget + 4 + entryBytes fs req (name, node) ≤ mx := by
        unfold entryBytes
        dsimp only
        omega
      have hnil := greedy_cons_of_not_fits es hno
      rw [if_pos hfull]
      refine ⟨?_, ?_, fun x hx => ?_, fun _ => rfl⟩
      · rw [hnil]
        exact (List.append_nil _).symm
      · simp [hnil]
      · rw [hnil] at hx
        cases hx
    · have hfit : l.budget + 4 + entryBytes fs req (name, node) ≤ mx := by
        unfold entryBytes
        dsimp only
        omega
      have hcons := greedy_cons_of_fits es hfit
      have h := ih { budget := l.budget + ((encodeEntry fs req name node).length + 4)
                     w := (l.w.u32 1).append (encodeEntry fs req name node)
                     ckName := rememberCookie l.ckName (nameCookie name) name }
      have hbudget : l.budget + ((encodeEntry fs req name node).length + 4) + 4 =
          l.budget + 4 + entryBytes fs req (name, node) := by
        unfold entryBytes
        dsimp only
        omega
      obtain ⟨hw, hall, hlast, hsame⟩ := h
      simp only [hbudget] at hw hall hlast hsame
      rw [if_neg hfull]
      refine ⟨?_, ?_, ?_, fun hnil => ?_⟩
      · rw [hw, hcons]
        simp [wire, Writer.append, Writer.u32]
      · rw [hall, hcons, List.cons.injEq, and_iff_right rfl]
      · refine greedy_last_cons hfit hlast fun hnil => ?_
        rw [hsame hnil]
        exact (OrdMap.get_put ..).trans (if_pos rfl)
      · rw [hcons] at hnil
        cases hnil

theorem listEntries_append (xs ys : List (Bytes × Node)) (l : Listing) :
    listEntries fs req mx (xs ++ ys) l = match listEntries fs req mx xs l with
      | (false, l) => (false, l)
      | (true, l) => listEntries fs req mx ys l := by
  induction xs generalizing l with
  | nil => rfl
  | cons e xs ih =>
    obtain ⟨name, node⟩ := e
    simp only [List.cons_append, listEntries]
    split_ifs
    · rfl
    · exact ih _

/-- The fuel lasts for all of the entries to come. -/
theorem listPages_eq {ahead : Bytes → List (Bytes × Node)} (h : fs.Ahead dir ahead) {fuel : Nat} {after : Bytes}
    (hfuel : (ahead after).length < fuel) (l : Listing) :
    listPages fs dir req mx fuel after l = listEntries fs req mx (ahead after) l := by
  induction fuel generalizing after l with
  | zero => omega
  | succ fuel ih =>
    rw [listPages]
    rcases h.next after (show 1 ≤ 512 by decide) with ⟨heof, hents⟩ | ⟨heof, hents, hne⟩
    · rw [hents, heof, Bool.or_true]
      cases hl : listEntries fs req mx (ahead after) l with
      | mk all l => cases all <;> rfl
    · have hlen := List.length_pos_iff.mpr hne
      have hempty : (fs.readdirPage dir after 512).entries.isEmpty = false := by simpa using hne
      rw [heof, hempty, hents, listEntries_append]
      cases listEntries fs req mx (fs.readdirPage dir after 512).entries l with
      | mk all l =>
        cases all with
        | false => rfl
        | true =>
          refine ih ?_ l
          rw [hents, List.length_append] at hfuel
          omega

/-- What a listing answers with behind an OK status: entries, the end of the list and the end flag. -/
def listing (fs : PrfsStore) (req : List UInt32) (w : Writer) (es : List (Bytes × Node)) (eof : Bool) : Writer :=
  (((zeros8 (w.u32 Nfsstat4.ok.code)).append (wire fs req es)).u32 0).u32 (if eof then 1 else 0)

theorem listing_length (fs : PrfsStore) (req : List UInt32) (w : Writer) (es : List (Bytes × Node)) (eof : Bool) :
    (listing fs req w es eof).v.length = w.v.length + (20 + (es.map (entryBytes fs req)).sum) := by
  have hword : ∀ x, (word x).length = 4 := fun _ => rfl
  simp only [listing, zeros8, Writer.u32, Writer.append, List.length_append, wire_length, List.length_replicate, hword]
  omega

theorem flag_inj {a b : Bool} (h : word (if a then 1 else 0) = word (if b then 1 else 0)) : a = b := by
  revert a b
  decide

/-- Which of some entries a reply gives, and its flag, are told by its bytes. -/
theorem listing_inj {w : Writer} {es es' left : List (Bytes × Node)} {eof eof' : Bool} (hes : es <+: left)
    (hes' : es' <+: left) (h : listing fs req w es eof = listing fs req w es' eof') : es = es' ∧ eof = eof' := by
  have hsum : (es.map (entryBytes fs req)).sum = (es'.map (entryBytes fs req)).sum := by
    have hlen := congrArg (fun w : Writer => w.v.length) h
    simp only [listing_length] at hlen
    omega
  have hmore : ∀ {xs ys : List (Bytes × Node)}, xs <+: ys →
      (xs.map (entryBytes fs req)).sum = (ys.map (entryBytes fs req)).sum → xs = ys := by
    rintro xs ys ⟨rest, rfl⟩ hs
    cases rest with
    | nil => exact (List.append_nil xs).symm
    | cons e rest =>
      rw [List.map_append, List.sum_append, List.map_cons, List.sum_cons, entryBytes] at hs
      omega
  have heq : es = es' := by
    rcases List.prefix_or_prefix_of_prefix hes hes' with hp | hp
    · exact hmore hp hsum
    · exact (hmore hp hsum.symm).symm
  subst heq
  refine ⟨rfl, flag_inj ?_⟩
  have hv := congrArg Writer.v h
  simp only [listing, Writer.u32, Writer.append] at hv
  exact List.append_cancel_left hv

namespace Call4

variable {c c' : Call4} {cookie : UInt64}

/-- READDIR of a directory, once its arguments are read. -/
def readdirAt (c : Call4) (dir : Node) (req : List UInt32) (mx : Nat) (cookie : UInt64) : Out4 :=
  if cookie = 0 then listFrom c dir req mx []
  else
    match resumeName c.ckName c.fs dir cookie with
    | none => c.exit .badCookie
    | some after => listFrom c dir req mx after

theorem opReaddir_eq (c : Call4) (m : Msg) : opReaddir c m =
    let (cookie, r) := c.r.u64 m
    let (_, r) := (r.skip m 8).u32 m
    let (mx, r) := r.u32 m
    let (req, r) := r.bitmap m
    match Call4.cur { c with r } with
    | none => Call4.exit { c with r } .nofilehandle
    | some dir =>
      if (c.fs.attrs dir).type ≠ .DIR then Call4.exit { c with r } .notdir
      else readdirAt { c with r } dir req mx.toNat cookie := rfl

/-- Where the store is asked to go on for a cookie. -/
def resumePoint (c : Call4) (dir : Node) (cookie : UInt64) : Bytes :=
  if cookie = 0 then [] else (resumeName c.ckName c.fs dir cookie).getD []

/-- The name of a cookie that is not the first is known or found. -/
def Resumes (c : Call4) (dir : Node) (cookie : UInt64) : Prop :=
  cookie ≠ 0 → (resumeName c.ckName c.fs dir cookie).isSome

/-- The entries that a listing has left after a cookie. -/
def pending (c : Call4) (dir : Node) (cookie : UInt64) : List (Bytes × Node) :=
  c.fs.dirAhead dir (resumePoint c dir cookie)

theorem readdirAt_takes (req : List UInt32) (mx : Nat) (hs : PrfsStore.Run .empty c.fs) (hres : Resumes c dir cookie) :
    ∃ r, Listing.Takes c.fs req mx { w := zeros8 (c.w.u32 Nfsstat4.ok.code), ckName := c.ckName }
        (pending c dir cookie) r ∧
      readdirAt c dir req mx cookie =
        (.ok, { c with w := (r.2.w.u32 0).u32 (if r.1 then 1 else 0), ckName := r.2.ckName }) := by
  have hfrom : ∀ after, ∃ r, Listing.Takes c.fs req mx { w := zeros8 (c.w.u32 Nfsstat4.ok.code), ckName := c.ckName }
        (c.fs.dirAhead dir after) r ∧
      listFrom c dir req mx after =
        (.ok, { c with w := (r.2.w.u32 0).u32 (if r.1 then 1 else 0), ckName := r.2.ckName }) := by
    intro after
    refine ⟨_, listEntries_takes _ _, ?_⟩
    rw [listFrom, listPages_eq (c.fs.ahead dir) (PrfsStore.dirAhead_length_lt hs dir after)]
  unfold readdirAt pending resumePoint
  split_ifs with hzero
  · exact hfrom []
  · obtain ⟨after, hafter⟩ := Option.isSome_iff_exists.mp (hres hzero)
    rw [hafter]
    exact hfrom after

theorem resumes_of_ok (h : readdirAt c dir req mx cookie = (.ok, c')) : Resumes c dir cookie := by
  intro hne
  rw [readdirAt, if_neg hne] at h
  cases hname : resumeName c.ckName c.fs dir cookie with
  | none =>
    rw [hname] at h
    cases h
  | some after => rfl

theorem resumePoint_nameCookie (dir : Node) {name : Bytes} (h : c.ckName.get (nameCookie name) = some name) :
    Resumes c dir (nameCookie name) ∧ resumePoint c dir (nameCookie name) = name := by
  have hne : nameCookie name ≠ 0 := NfsV3.nameCookie_ne (by decide) name
  have hres : resumeName c.ckName c.fs dir (nameCookie name) = some name := by
    rw [resumeName, h]
  refine ⟨fun _ => Option.isSome_iff_exists.mpr ⟨_, hres⟩, ?_⟩
  rw [resumePoint, if_neg hne, hres]
  rfl

/-- A client gets entries in the reply after a cookie, with the cache as it then is, and goes on with the cookie of the
last of them. -/
def Gets (c : Call4) (dir : Node) (req : List UInt32) (mx : Nat) (x : OrdMap UInt64 Bytes × UInt64) (eof : Bool)
    (es : List (Bytes × Node)) (y : OrdMap UInt64 Bytes × UInt64) : Prop :=
  ∃ c', readdirAt { c with ckName := x.1 } dir req mx x.2 = (.ok, c') ∧ c'.w = listing c.fs req c.w es eof ∧
    es <+: pending { c with ckName := x.1 } dir x.2 ∧
    y = (c'.ckName, (es.getLast?.map (fun e => nameCookie e.1)).getD x.2)

variable {x y : OrdMap UInt64 Bytes × UInt64} {eof : Bool} {es : List (Bytes × Node)}

theorem taken_listing {w : Writer} {ckName : OrdMap UInt64 Bytes} {left : List (Bytes × Node)} {r : Bool × Listing}
    (h : Listing.Takes fs req mx { w := zeros8 (w.u32 Nfsstat4.ok.code), ckName } left r) :
    (r.2.w.u32 0).u32 (if r.1 then 1 else 0) = listing fs req w (greedy (entryBytes fs req) mx 100 left) r.1 := by
  have hw : r.2.w = (zeros8 (w.u32 Nfsstat4.ok.code)).append (wire fs req (greedy (entryBytes fs req) mx 100 left)) :=
    congrArg Writer.mk h.w
  rw [hw]
  rfl

/-- A call that can be resumed is answered with what fits. -/
theorem gets_of_resumes (req : List UInt32) (mx : Nat) (hs : PrfsStore.Run .empty c.fs)
    (hres : Resumes { c with ckName := x.1 } dir x.2) :
    ∃ r, Listing.Takes c.fs req mx { w := zeros8 (c.w.u32 Nfsstat4.ok.code), ckName := x.1 }
        (pending { c with ckName := x.1 } dir x.2) r ∧
      ∀ eof es y, Gets c dir req mx x eof es y ↔
        es = greedy (entryBytes c.fs req) mx 100 (pending { c with ckName := x.1 } dir x.2) ∧ eof = r.1 ∧
          y = (r.2.ckName, (es.getLast?.map (fun e => nameCookie e.1)).getD x.2) := by
  obtain ⟨r, hr, hat⟩ := readdirAt_takes (c := { c with ckName := x.1 }) req mx hs hres
  refine ⟨r, hr, fun eof es y => ?_⟩
  have hpre := greedy_prefix (entryBytes c.fs req) mx 100 (pending { c with ckName := x.1 } dir x.2)
  constructor
  · rintro ⟨c', hc', hw, hes, rfl⟩
    rw [hat] at hc'
    obtain rfl := (Prod.mk.inj hc').2
    rw [taken_listing hr] at hw
    obtain ⟨rfl, rfl⟩ := listing_inj hpre hes hw
    exact ⟨rfl, rfl, rfl⟩
  · rintro ⟨rfl, rfl, rfl⟩
    exact ⟨_, hat, taken_listing hr, hpre, rfl⟩

/-- The cookie of an entry resumes with the ones behind it. -/
theorem pending_rest {xs ys : List (Bytes × Node)} {e : Bytes × Node} (h : pending c dir cookie = xs ++ e :: ys)
    {ckName : OrdMap UInt64 Bytes} (hlast : ckName.get (nameCookie e.1) = some e.1) :
    Resumes { c with ckName } dir (nameCookie e.1) ∧ pending { c with ckName } dir (nameCookie e.1) = ys := by
  obtain ⟨hres, hpoint⟩ := resumePoint_nameCookie (c := { c with ckName }) dir hlast
  refine ⟨hres, ?_⟩
  rw [pending, hpoint]
  exact (c.fs.ahead dir).rest _ xs e ys h

theorem gets_fills (hs : PrfsStore.Run .empty c.fs) (dir : Node) (req : List UInt32) (mx : Nat) :
    Fills (entryBytes c.fs req) mx 100 (Gets c dir req mx) (fun x => Resumes { c with ckName := x.1 } dir x.2)
      (fun x => pending { c with ckName := x.1 } dir x.2) where
  ex := by
    intro x hres
    obtain ⟨r, -, hgets⟩ := gets_of_resumes req mx hs hres
    exact ⟨_, _, _, (hgets _ _ _).mpr ⟨rfl, rfl, rfl⟩⟩
  ents := by
    intro x eof es y hres hp
    obtain ⟨r, -, hgets⟩ := gets_of_resumes req mx hs hres
    exact ((hgets _ _ _).mp hp).1
  eof := by
    intro x eof es y hres hp
    obtain ⟨r, hr, hgets⟩ := gets_of_resumes req mx hs hres
    obtain ⟨rfl, rfl, -⟩ := (hgets _ _ _).mp hp
    exact hr.all
  rest := by
    rintro ⟨ckName, cookie⟩ eof es y hres hp
    obtain ⟨r, hr, hgets⟩ := gets_of_resumes req mx hs hres
    obtain ⟨hes, -, rfl⟩ := (hgets _ _ _).mp hp
    obtain ⟨rest, hrest⟩ := greedy_prefix (entryBytes c.fs req) mx 100
      (pending { c with ckName } dir cookie)
    rw [← hes] at hrest
    cases hlast : es.getLast? with
    | none =>
      obtain rfl := List.getLast?_eq_none_iff.mp hlast
      rw [hr.same hes.symm]
      exact ⟨hres, rfl⟩
    | some e =>
      obtain ⟨xs, hxs⟩ := List.getLast?_eq_some_iff.mp hlast
      rw [hxs, List.append_assoc, List.singleton_append] at hrest
      obtain ⟨hnext, hys⟩ := pending_rest (c := { c with ckName }) hrest.symm (hr.last e (hes ▸ hlast))
      refine ⟨hnext, ?_⟩
      dsimp only [Option.map_some, Option.getD_some]
      rw [hys, hxs, List.append_assoc, List.singleton_append, hrest]

end Call4

end NfsV4

end Prfs
