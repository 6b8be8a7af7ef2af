import Prfs.ExclusiveCreate
import Prfs.ListingNames

namespace Prfs

namespace View

variable {v w : View} {root dir child x : UInt64} {name : Bytes}

/-- A node is reached from the root through entries. -/
def Rooted (v : View) (root x : UInt64) : Prop := Relation.ReflTransGen (fun d c => ∃ n, v.entry d n = some c) root x

/-- The same without one entry. -/
def RootedWithout (v : View) (dir : UInt64) (name : Bytes) (root x : UInt64) : Prop :=
  Relation.ReflTransGen (fun d c => ∃ n, ¬ (d = dir ∧ n = name) ∧ v.entry d n = some c) root x

/-- What is reached from the root still is, but for one node. -/
def KeepsTree (v w : View) (root child : UInt64) : Prop := ∀ x, v.Rooted root x → x ≠ child → w.Rooted root x

/-- `w` has the entries of `v` but one. -/
def Without (v w : View) (dir : UInt64) (name : Bytes) : Prop :=
  ∀ d n, w.entry d n = if d = dir ∧ n = name then none else v.entry d n

theorem Without.rooted_iff (h : v.Without w dir name) : w.Rooted root x ↔ v.RootedWithout dir name root x := by
  have hstep : (fun d c => ∃ n, w.entry d n = some c) =
      fun d c => ∃ n, ¬ (d = dir ∧ n = name) ∧ v.entry d n = some c := by
    funext d c
    refine propext (exists_congr fun n => ?_)
    rw [h d n]
    split_ifs with hhit
    · simp [hhit]
    · simp [hhit]
  rw [Rooted, RootedWithout, hstep]

/-- A removal keeps the tree exactly when its directory was not in it or the entries of the removed node lead to what is
reached without the removed one. -/
theorem Without.keepsTree_iff (h : v.Without w dir name) (hc : v.Consistent) (ha : v.Acyclic)
    (he : v.entry dir name = some child) : v.KeepsTree w root child ↔
      (v.Rooted root dir → ∀ n x, v.entry child n = some x → v.RootedWithout dir name root x) := by
  have hsub : ∀ d c, (∃ n, w.entry d n = some c) → ∃ n, v.entry d n = some c := by
    rintro d c ⟨n, hn⟩
    rw [h d n] at hn
    split_ifs at hn
    exact ⟨n, hn⟩
  have hsplit : ∀ d c, (∃ n, v.entry d n = some c) → (∃ n, w.entry d n = some c) ∨ d = dir ∧ c = child := by
    rintro d c ⟨n, hn⟩
    by_cases hhit : d = dir ∧ n = name
    · obtain ⟨rfl, rfl⟩ := hhit
      exact Or.inr ⟨rfl, Option.some.inj (hn.symm.trans he)⟩
    · exact Or.inl ⟨n, by rw [h d n, if_neg hhit, hn]⟩
  have hloop : ¬ ∃ n, v.entry child n = some child := by
    rintro ⟨n, hn⟩
    exact ha child (.single ⟨hc.dir hn, n, hn⟩)
  have hne : ∀ n x, v.entry child n = some x → w.entry child n = some x := by
    intro n x hn
    rw [h child n, if_neg, hn]
    rintro ⟨rfl, -⟩
    exact hloop ⟨name, he⟩
  refine (reached_without_edge_iff hsub hsplit ⟨name, he⟩ hloop).trans (imp_congr_right fun _ => ?_)
  constructor
  · intro hall n x hn
    exact h.rooted_iff.mp (hall x ⟨n, hne n x hn⟩)
  · rintro hall x ⟨n, hn⟩
    obtain ⟨n', hn'⟩ := hsub child x ⟨n, hn⟩
    exact h.rooted_iff.mpr (hall n' x hn')

/-- A node without entries can go. -/
theorem Without.keepsTree_of_leaf (h : v.Without w dir name) (hc : v.Consistent) (ha : v.Acyclic)
    (he : v.entry dir name = some child) (hleaf : ∀ n x, v.entry child n ≠ some x) : v.KeepsTree w root child :=
  (h.keepsTree_iff hc ha he).mpr fun _ n x hn => absurd hn (hleaf n x)

end View

namespace PrfsStore

variable {s : PrfsStore} {dir : Node} {name : Bytes}

theorem setAttr_view (h : s.Sound) (n : Node) (x : Setter) :
    (s.setAttr n x).liveView = s.liveView.modify n.id (fun r => x.apply r) := by
  have hfits : s.Fits (.setAttr n x) := trivial
  obtain ⟨a, -, -, hlive, hlive'⟩ := h.exec_live hfits
  rw [hlive]
  exact hlive'

theorem touchDir_entry (h : s.Sound) (dir : Node) (d : UInt64) (n : Bytes) :
    (touchDir s dir).liveView.entry d n = s.liveView.entry d n := by
  have hfits : s.Fits (.setAttr dir (.mtime s.now)) := trivial
  have hmid : (s.setAttr dir (.mtime s.now)).Sound := h.exec hfits
  rw [touchDir, setAttr_view hmid, setAttr_view h]
  rfl

/-- An unlink that succeeds takes one entry away. -/
theorem unlink_without (h : s.Sound) (hok : (s.unlink dir name).1 = .OK) :
    ∃ c, s.liveView.entry dir.id name = some c ∧
      s.liveView.Without (touchDir (s.unlink dir name).2 dir).liveView dir.id name := by
  obtain ⟨c, hc, hview⟩ := unlink_view h hok
  have hfits : s.Fits (.unlink dir name) := trivial
  have hmid : (s.unlink dir name).2.Sound := h.exec hfits
  refine ⟨c, hc, fun d n => ?_⟩
  rw [touchDir_entry hmid, hview]
  rfl

/-- A node that is no directory, or an empty one, has no entries. -/
theorem no_entry_of_empty (hs : s.Sound) {c : UInt64} (hid : isSnapDir c = false)
    (hempty : (s.attrs ⟨c, LATEST⟩).type = .DIR → s.readdir ⟨c, LATEST⟩ = []) (n : Bytes) (x : UInt64) :
    s.liveView.entry c n ≠ some x := by
  intro hn
  obtain ⟨r, hr, ht⟩ := (hs.consistent s.cur).dir hn
  have htype : (s.attrs ⟨c, LATEST⟩).type = .DIR := by
    have hnode : s.liveView.node c = some r := hr
    rw [attrs_eq hid, viewAt_latest rfl, hnode, Option.getD_some, Attrs.of, ht, FType.ofCode_code]
  have hmem : (n, ⟨x, LATEST⟩) ∈ s.readdir ⟨c, LATEST⟩ := (mem_readdir hid rfl).mpr ⟨x, hn, rfl⟩
  rw [hempty htype] at hmem
  cases hmem

theorem entry_lookup (hs : Run empty s) (hl : dir.snap = LATEST) {c : UInt64}
    (he : s.liveView.entry dir.id name = some c) : isSnapDir c = false ∧ s.lookup dir name = some ⟨c, LATEST⟩ := by
  have hids : ∀ {id r}, s.liveView.node id = some r → isSnapDir id = false := hs.sound.not_isSnapDir
  have hcons : s.liveView.Consistent := hs.sound.consistent s.cur
  obtain ⟨r, hr⟩ := hcons.child he
  obtain ⟨d, hd, -⟩ := hcons.dir he
  have hmem : (name, (⟨c, LATEST⟩ : Node)) ∈ s.readdir dir := (mem_readdir (hids hd) hl).mpr ⟨c, he, rfl⟩
  exact ⟨hids hr, lookup_of_mem_readdir (hids hd) hl hmem (hs.avoids _ _ _ he)⟩

end PrfsStore

namespace NfsV3

variable {h : Host} {v : NfsV3} {m : Msg} {r r' : Reader} {w : Writer} {dir : Node} {pre : Option PreAttr}
  {name : Bytes} {fs : PrfsStore}

theorem answered_status {st : Nfsstat3} {before : Option PreAttr} {after : Option Node}
    (hok : Answered (answer v (encodeWcc h fs (({} : Writer).u32 st.code) before after)) .ok) :
    Nfsstat3.ok.code = st.code :=
  hok.code (answered_answer (pre_encodeWcc (.refl _) before after))

theorem nfsRemove_ok (hd : diropParent live h v m r {} = (.ok (dir, pre, name), r', w))
    (hok : Answered (nfsRemove live h v m r {}) .ok) : (v.fs.unlink dir name).1 = .OK ∧
      (nfsRemove live h v m r {}).2.2.fs = touchDir (v.fs.unlink dir name).2 dir := by
  obtain ⟨id, r1, -, -, -, -, -, -, rfl⟩ := diropParent_ok_iff.mp hd
  unfold nfsRemove at hok ⊢
  rw [hd] at hok ⊢
  dsimp only at hok ⊢
  have he := toNfsStat_ok (answered_status hok)
  exact ⟨he, by simp only [answer, touched, if_pos he]⟩

theorem nfsRmdir_ok (hd : diropParent live h v m r {} = (.ok (dir, pre, name), r', w))
    (hok : Answered (nfsRmdir live h v m r {}) .ok) : (v.fs.unlink dir name).1 = .OK ∧
      (∃ child, v.fs.lookup dir name = some child ∧ v.fs.readdir child = []) ∧
      (nfsRmdir live h v m r {}).2.2.fs = touchDir (v.fs.unlink dir name).2 dir := by
  obtain ⟨id, r1, -, -, -, -, -, -, rfl⟩ := diropParent_ok_iff.mp hd
  unfold nfsRmdir at hok ⊢
  rw [hd] at hok ⊢
  dsimp only at hok ⊢
  cases hlook : v.fs.lookup dir name with
  | none =>
    rw [hlook] at hok
    exact absurd (answered_status hok) (by decide)
  | some child =>
    rw [hlook] at hok
    dsimp only at hok ⊢
    split_ifs at hok ⊢ with htype hempty
    · exact absurd (answered_status hok) (by decide)
    · exact absurd (answered_status hok) (by decide)
    · have he := toNfsStat_ok (answered_status hok)
      exact ⟨he, ⟨child, rfl, by simpa using hempty⟩, by simp only [answer, touched, if_pos he]⟩

end NfsV3

namespace NfsV4.Call4

variable {c : Call4} {m : Msg} {dir : Node}

theorem opRemove_ok (hcur : c.cur = some dir) (hok : (c.opRemove live m).1 = .ok) :
    dir.snap = LATEST ∧ (c.fs.unlink dir (c.r.str m).1).1 = .OK ∧
      (∀ child, c.fs.lookup dir (c.r.str m).1 = some child → (c.fs.attrs child).type = .DIR →
        c.fs.readdir child = []) ∧
      (c.opRemove live m).2.fs = touchDir (c.fs.unlink dir (c.r.str m).1).2 dir := by
  unfold opRemove at hok ⊢
  simp only [cur_r, liveCfh_r, hcur] at hok ⊢
  split at hok
  · cases hok
  split at hok
  · cases hok
  split at hok
  · cases hok
  next hdir hlive hvictim =>
  rw [if_neg hdir, if_neg hlive, if_neg hvictim]
  have hl : c.liveCfh live = true := by simpa using hlive
  have hempty : ∀ child, c.fs.lookup dir (c.r.str m).1 = some child → (c.fs.attrs child).type = .DIR →
      c.fs.readdir child = [] := by
    intro child hlook ht
    simpa [hlook, ht] using hvictim
  refine ⟨cur_live hcur hl, ?_, hempty, ?_⟩
  · split at hok
    · next fs he => rw [he]
    · next e fs hne he =>
      cases e <;> first | exact absurd rfl hne | cases hok
  · split at hok
    · next fs he => rw [he]; rfl
    · next e fs hne he =>
      cases e <;> first | exact absurd rfl hne | cases hok

end NfsV4.Call4

namespace NfsV3

/-- A removal that succeeds takes one name of a child away. By RMDIR and by the REMOVE of version 4 everything else that the
root reaches stays reached. By the REMOVE of version 3 it does exactly when the directory is not reached, or when the entries of
the child lead to what is reached without that name. -/
theorem removal_keeps_tree {v : NfsV3} {c : NfsV4.Call4} (hv : PrfsStore.Run .empty v.fs) (hc : PrfsStore.Run .empty c.fs) (h : Host) (m : Msg)
    (r : Reader) :
    (∀ dir pre name r' w, diropParent live h v m r {} = (.ok (dir, pre, name), r', w) →
      (Answered (nfsRmdir live h v m r {}) .ok → ∃ child, v.fs.liveView.entry dir.id name = some child ∧
        v.fs.liveView.KeepsTree (nfsRmdir live h v m r {}).2.2.fs.liveView v.fs.root child) ∧
      (Answered (nfsRemove live h v m r {}) .ok → ∃ child, v.fs.liveView.entry dir.id name = some child ∧
        (v.fs.liveView.KeepsTree (nfsRemove live h v m r {}).2.2.fs.liveView v.fs.root child ↔
          (v.fs.liveView.Rooted v.fs.root dir.id → ∀ n x, v.fs.liveView.entry child n = some x →
            v.fs.liveView.RootedWithout dir.id name v.fs.root x)))) ∧
    ∀ dir, c.cur = some dir → (c.opRemove live m).1 = .ok →
      ∃ child, c.fs.liveView.entry dir.id (c.r.str m).1 = some child ∧
        c.fs.liveView.KeepsTree (c.opRemove live m).2.fs.liveView c.fs.root child := by
  refine ⟨fun dir pre name r' w hd => ?_, fun dir hcur hok => ?_⟩
  · have hsnap : dir.snap = LATEST := by
      obtain ⟨_, _, -, -, -, hn, -⟩ := diropParent_ok_iff.mp hd
      exact PrfsStore.nodeById_snap hn
    refine ⟨fun hok => ?_, fun hok => ?_⟩
    · obtain ⟨hunlink, ⟨node, hlook, hnone⟩, hfs⟩ := nfsRmdir_ok hd hok
      obtain ⟨child, he, hw⟩ := PrfsStore.unlink_without hv.sound hunlink
      obtain ⟨hid, hchild⟩ := PrfsStore.entry_lookup hv hsnap he
      cases hlook.symm.trans hchild
      refine ⟨child, he, ?_⟩
      rw [hfs]
      exact hw.keepsTree_of_leaf (hv.sound.consistent v.fs.cur) (hv.sound.acyclic v.fs.cur) he
        (PrfsStore.no_entry_of_empty hv.sound hid fun _ => hnone)
    · obtain ⟨hunlink, hfs⟩ := nfsRemove_ok hd hok
      obtain ⟨child, he, hw⟩ := PrfsStore.unlink_without hv.sound hunlink
      refine ⟨child, he, ?_⟩
      rw [hfs]
      exact hw.keepsTree_iff (hv.sound.consistent v.fs.cur) (hv.sound.acyclic v.fs.cur) he
  · obtain ⟨hsnap, hunlink, hempty, hfs⟩ := NfsV4.Call4.opRemove_ok hcur hok
    obtain ⟨child, he, hw⟩ := PrfsStore.unlink_without hc.sound hunlink
    obtain ⟨hid, hchild⟩ := PrfsStore.entry_lookup hc hsnap he
    refine ⟨child, he, ?_⟩
    rw [hfs]
    exact hw.keepsTree_of_leaf (hc.sound.consistent c.fs.cur) (hc.sound.acyclic c.fs.cur) he
      (PrfsStore.no_entry_of_empty hc.sound hid (hempty ⟨child, LATEST⟩ hchild))

/-- The arguments of a REMOVE or an RMDIR of `d` in the root. -/
def removeArgs : Msg := ⟨((({} : Writer).fh 1 LATEST).str [100]).v, fun _ => 0, by decide⟩

/-- An empty directory `d` in the root. -/
def emptyDir : PrfsStore := PrfsStore.empty.after [.mkdir, .link ⟨1, LATEST⟩ [100] ⟨2, LATEST⟩]

/-- A directory `d` in the root that holds a file `f`. -/
def fullDir : PrfsStore := emptyDir.after [.mkfile [], .link ⟨2, LATEST⟩ [102] ⟨3, LATEST⟩]

set_option maxRecDepth 20000 in
/-- An RMDIR of the empty directory leaves what else the root reaches. -/
theorem removal_keeps_tree_rmdir : Answered (nfsRmdir live {} { fs := emptyDir } removeArgs {} {}) .ok ∧
    emptyDir.liveView.KeepsTree (nfsRmdir live {} { fs := emptyDir } removeArgs {} {}).2.2.fs.liveView 1 2 := by
  have hok : Answered (nfsRmdir live {} { fs := emptyDir } removeArgs {} {}) .ok := by
    refine ⟨by decide, ?_⟩
    unfold Writer.Pre
    decide
  have hrun : PrfsStore.Run .empty emptyDir := PrfsStore.run_after (by decide)
  have hkeeps := removal_keeps_tree (v := { fs := emptyDir }) (c := { v := {}, fs := emptyDir }) hrun hrun {} removeArgs {}
  obtain ⟨child, he, hkeep⟩ := (hkeeps.1 ⟨1, LATEST⟩ _ [100] _ _ rfl).1 hok
  obtain rfl : child = 2 := Option.some.inj (he.symm.trans (by decide))
  exact ⟨hok, hkeep⟩

set_option maxRecDepth 20000 in
/-- A REMOVE of the full directory is answered OK, and its file is not reached after it. -/
theorem remove_orphans : PrfsStore.Run .empty fullDir ∧ Answered (nfsRemove live {} { fs := fullDir } removeArgs {} {}) .ok ∧
    fullDir.liveView.entry 1 [100] = some 2 ∧ fullDir.liveView.Rooted fullDir.root 3 ∧
    ¬ (nfsRemove live {} { fs := fullDir } removeArgs {} {}).2.2.fs.liveView.Rooted fullDir.root 3 := by
  refine ⟨(PrfsStore.run_after (by decide)).trans (PrfsStore.run_after (by decide)), ⟨by decide, ?_⟩, by decide, ?_, ?_⟩
  · unfold Writer.Pre
    decide
  · have hdir : fullDir.liveView.entry fullDir.root [100] = some 2 := by decide
    have hfile : fullDir.liveView.entry 2 [102] = some 3 := by decide
    exact .tail (.single ⟨[100], hdir⟩) ⟨[102], hfile⟩
  · intro hreach
    rcases hreach.cases_head with heq | ⟨d, ⟨n, hn⟩, -⟩
    · exact absurd heq (by decide)
    · have hnone : (nfsRemove live {} { fs := fullDir } removeArgs {} {}).2.2.fs.readdir ⟨1, LATEST⟩ = [] := by decide
      have hmem : (n, (⟨d, LATEST⟩ : Node)) ∈
          (nfsRemove live {} { fs := fullDir } removeArgs {} {}).2.2.fs.readdir ⟨1, LATEST⟩ :=
        (PrfsStore.mem_readdir (by decide) rfl).mpr ⟨d, hn, rfl⟩
      rw [hnone] at hmem
      cases hmem

end NfsV3

end Prfs
