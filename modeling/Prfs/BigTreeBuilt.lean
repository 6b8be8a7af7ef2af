import Prfs.BigTreePaths

namespace Prfs

namespace BigTree

variable {o : BigTreeOptions} {lo : UInt64} {depth left day n : Nat} {b b' b0 : BigTree} {dir : Node} {path : Bytes}

/-- The names given out so far: of the first days, and of numbers up to `id` for the rest. -/
def Used (id day : Nat) (name : Bytes) : Prop := ∃ l k, name = Label.name l k ∧ k ≤ if l = .day then day else id

theorem unused_label {l : Label} {id k : Nat} (hk : (if l = .day then day else id) < k) : ¬ Used id day (l.name k) := by
  rintro ⟨l', k', hname, hle⟩
  obtain ⟨rfl, rfl⟩ := Label.name_injective hname
  omega

theorem unused_next {l : Label} (hl : l ≠ .day) {id : Nat} : ¬ Used id day (l.name (id + 1)) := by
  refine unused_label ?_
  rw [if_neg hl]
  exact Nat.lt_succ_self id

theorem used_next {l : Label} (hl : l ≠ .day) {id : Nat} (name : Bytes) (h : Used id day name ∨ name = l.name (id + 1)) :
    Used (id + 1) day name := by
  rcases h with ⟨l', k, rfl, hk⟩ | rfl
  · refine ⟨l', k, rfl, ?_⟩
    split_ifs at hk ⊢
    · exact hk
    · exact Nat.le_succ_of_le hk
  · refine ⟨l, id + 1, rfl, ?_⟩
    rw [if_neg hl]

/-- The tree so far: its files are regular, and each is where its path says. -/
structure Built (lo : UInt64) (depth day : Nat) (b : BigTree) : Prop where
  sound : b.fs.Sound
  start : lo ≤ b.fs.next
  tree : b.fs.liveView.Tree lo b.fs.next (Used b.id day) depth
  files : ∀ f ∈ b.files, f.node.snap = LATEST ∧ b.fs.liveView.IsFile f.node.id

def Placed (b : BigTree) : Prop := ∀ f ∈ b.files, ∃ names, f.path = View.pathText names ∧ b.fs.liveView.Reached names f.node.id

/-- A directory of the tree, under its path, with room for `left` levels below it. -/
structure At (lo : UInt64) (depth left : Nat) (b : BigTree) (dir : Node) (path : Bytes) : Prop where
  trail : ∃ names, path = View.pathText names ∧ b.fs.liveView.Reached names dir.id ∧ names.length + 1 + left ≤ depth
  isDir : b.fs.liveView.IsDir dir.id
  ours : dir.id = 1 ∨ lo ≤ dir.id

theorem At.grows (h : At lo depth left b dir path) (hg : b.fs.liveView.Grows b'.fs.liveView) : At lo depth left b' dir path := by
  obtain ⟨names, hpath, hreach, hlen⟩ := h.trail
  exact ⟨⟨names, hpath, hreach.grows hg, hlen⟩, hg.isDir h.isDir, h.ours⟩

/-- A stretch of the building, which takes `n` ids at most. -/
structure Step (lo : UInt64) (depth n : Nat) (b b' : BigTree) : Prop where
  built : Built lo depth 0 b'
  placed : Placed b'
  grown : b.fs.Grown lo (Used b'.id 0) depth n 0 b'.fs

theorem Step.refl (h : Built lo depth 0 b) (hp : Placed b) : Step lo depth 0 b b := ⟨h, hp, .refl h.sound h.tree⟩

theorem Step.trans {m : Nat} {b'' : BigTree} (h : Step lo depth m b b') (h' : Step lo depth n b' b'') : Step lo depth (m + n) b b'' :=
  ⟨h'.built, h'.placed, h.grown.trans h'.grown⟩

theorem Step.mono {m : Nat} (h : Step lo depth m b b') (hmn : m ≤ n) : Step lo depth n b b' := ⟨h.built, h.placed, h.grown.mono hmn⟩

/-- A stretch that adds no file to the list. -/
theorem Step.of_grown (h : Built lo depth 0 b) (hp : Placed b) (hfiles : b'.files = b.files)
    (hgrown : b.fs.Grown lo (Used b'.id 0) depth n 0 b'.fs) : Step lo depth n b b' := by
  refine ⟨⟨hgrown.sound, le_trans h.start hgrown.more, hgrown.tree, fun f hf => ?_⟩, fun f hf => ?_, hgrown⟩
  · rw [hfiles] at hf
    obtain ⟨hsnap, hreg⟩ := h.files f hf
    exact ⟨hsnap, hgrown.view.isFile hreg⟩
  · rw [hfiles] at hf
    obtain ⟨names, hnames, hreached⟩ := hp f hf
    exact ⟨names, hnames, hreached.grows hgrown.view⟩

/-- A stretch repeated. -/
theorem iterate_step {f : BigTree → BigTree} (hf : ∀ b, Built lo depth 0 b → Placed b → b0.fs.liveView.Grows b.fs.liveView →
    b.fs.next.toNat + n ≤ 2 ^ 63 → Step lo depth n b (f b)) (hb : Built lo depth 0 b0) (hp : Placed b0) {k : Nat}
    (hroom : b0.fs.next.toNat + k * n ≤ 2 ^ 63) : Step lo depth (k * n) b0 (f^[k] b0) := by
  induction k with
  | zero =>
    rw [Nat.zero_mul]
    exact Step.refl hb hp
  | succ k ih =>
    rw [Nat.succ_mul] at hroom ⊢
    have hpre := ih (by omega)
    have hnext := hpre.grown.next
    rw [Function.iterate_succ_apply']
    exact hpre.trans (hf _ hpre.built hpre.placed hpre.grown.view (by omega))

/-- The random numbers lie between their bounds. -/
def Fair (o : BigTreeOptions) : Prop := ∀ k lo hi, lo ≤ hi → lo ≤ o.draw k lo hi ∧ o.draw k lo hi ≤ hi

theorem randi_spec (b : BigTree) (lo hi : Int) : ∃ k, (b.randi o lo hi).2 = { b with drawn := k } := by
  unfold randi
  split_ifs
  · exact ⟨b.drawn, rfl⟩
  · exact ⟨b.drawn + 1, rfl⟩

theorem randi_le (hfair : Fair o) (b : BigTree) (lo hi : Int) : lo ≤ (b.randi o lo hi).1 ∧ (b.randi o lo hi).1 ≤ max lo hi := by
  unfold randi
  split_ifs with h
  · exact ⟨le_rfl, le_max_left lo hi⟩
  · obtain ⟨h1, h2⟩ := hfair b.drawn lo hi (by omega)
    exact ⟨h1, le_trans h2 (le_max_right lo hi)⟩

theorem Step.drawn (h : Step lo depth n b b') (k : Nat) : Step lo depth n b { b' with drawn := k } :=
  ⟨⟨h.built.sound, h.built.start, h.built.tree, h.built.files⟩, h.placed, h.grown⟩

theorem Step.randi (h : Step lo depth n b b') (l u : Int) : Step lo depth n b (b'.randi o l u).2 := by
  obtain ⟨k, hk⟩ := @randi_spec o b' l u
  rw [hk]
  exact h.drawn k

/-- The file that is picked is one of the tree's. -/
theorem target_spec (b : BigTree) : ∃ k, (b.target o).2 = { b with drawn := k } ∧ ∀ f, (b.target o).1 = some f → f ∈ b.files := by
  obtain ⟨k, hk⟩ := @randi_spec o b 0 (b.files.length - 1)
  unfold target
  dsimp only
  rw [hk]
  exact ⟨k, rfl, fun f hf => List.mem_of_getElem? hf⟩

theorem room_lt {next : UInt64} (h : next.toNat + 1 ≤ 2 ^ 63) : next < SNAP_BIT := by
  rw [UInt64.lt_iff_toNat_lt]
  have hbit : SNAP_BIT.toNat = 2 ^ 63 := rfl
  omega

/-- A node that is made in a directory of the tree, under a name that is new. -/
theorem At.made {t : PrfsStore} {type : FType} {blob : Bytes} {l : Label} {k id' day' : Nat} (hat : At lo depth left b dir path)
    (h : Built lo depth day b) (hmade : PrfsStore.Made b.fs t type blob dir.id (l.name k)) (hroom : b.fs.next < SNAP_BIT)
    (hnew : ¬ Used b.id day (l.name k)) (hused : ∀ n, Used b.id day n ∨ n = l.name k → Used id' day' n)
    (haim : type = .LNK → ∃ names f, blob = View.pathText names ∧ b.fs.liveView.Reached names f ∧ b.fs.liveView.IsFile f) :
    b.fs.Grown lo (Used id' day') depth 1 0 t ∧
      (∃ names, under path (l.name k) = View.pathText names ∧ t.liveView.Reached names b.fs.next ∧ names.length + left ≤ depth) ∧
      ∃ r, t.liveView.node b.fs.next = some r ∧ r.type = type.code := by
  obtain ⟨names, hpath, hreach, hlen⟩ := hat.trail
  obtain ⟨hgrown, hreached, hnode⟩ := hmade.grown h.sound h.tree hroom hreach hat.ours (by omega) hnew hused haim
  refine ⟨hgrown, ⟨names ++ [l.name k], ?_, hreached, ?_⟩, hnode⟩
  · rw [View.pathText_snoc, ← hpath]
  · rw [List.length_append, List.length_singleton]
    exact hlen

/-- A node that is made and linked in under the next number. -/
theorem At.made_next {type : FType} {blob : Bytes} {l : Label} {op : Op} (hl : l ≠ .day) (hat : At lo depth left b dir path)
    (h : Built lo depth day b) (hop : PrfsStore.Makes op type blob) (hroom : b.fs.next.toNat + 1 ≤ 2 ^ 63)
    (haim : type = .LNK → ∃ names f, blob = View.pathText names ∧ b.fs.liveView.Reached names f ∧ b.fs.liveView.IsFile f) :
    let t := ((b.fs.alloc type blob 0).2.link dir (l.name (b.id + 1)) ⟨b.fs.next, LATEST⟩).2
    b.fs.Grown lo (Used (b.id + 1) day) depth 1 0 t ∧
      (∃ names, under path (l.name (b.id + 1)) = View.pathText names ∧ t.liveView.Reached names b.fs.next ∧
        names.length + left ≤ depth) ∧
      ∃ r, t.liveView.node b.fs.next = some r ∧ r.type = type.code := by
  have hnew : ¬ Used b.id day (l.name (b.id + 1)) := unused_next hl
  have hmade := h.sound.made hop (room_lt hroom) hat.isDir (l.name_ne_snapshot _) (PrfsStore.free_of_unused h.tree hat.ours hnew)
  exact hat.made h hmade (room_lt hroom) hnew (fun name hname => used_next hl name hname) haim

theorem addFile_step (h : Built lo depth 0 b) (hp : Placed b) (hat : At lo depth left b dir path) (hroom : b.fs.next.toNat + 1 ≤ 2 ^ 63) :
    Step lo depth 1 b (addFile dir path b) := by
  obtain ⟨hgrown, ⟨names, hpath, hreached, -⟩, r, hr, ht⟩ :=
    @At.made_next _ _ _ _ _ _ _ .REG [] .file _ (by decide) hat h .file hroom fun hlnk => by cases hlnk
  have hadd : addFile dir path b = { b with
      id := b.id + 1
      fs := ((b.fs.alloc .REG [] 0).2.link dir (Label.file.name (b.id + 1)) ⟨b.fs.next, LATEST⟩).2
      files := b.files ++ [⟨⟨b.fs.next, LATEST⟩, under path (Label.file.name (b.id + 1))⟩] } := rfl
  rw [hadd]
  generalize ((b.fs.alloc .REG [] 0).2.link dir (Label.file.name (b.id + 1)) ⟨b.fs.next, LATEST⟩).2 = t at *
  refine ⟨⟨hgrown.sound, le_trans h.start hgrown.more, hgrown.tree, fun f hf => ?_⟩, fun f hf => ?_, hgrown⟩
  · rcases List.mem_append.mp hf with hf | hf
    · obtain ⟨hsnap, hfile⟩ := h.files f hf
      exact ⟨hsnap, hgrown.view.isFile hfile⟩
    · rw [List.mem_singleton.mp hf]
      exact ⟨rfl, r, hr, ht⟩
  · rcases List.mem_append.mp hf with hf | hf
    · obtain ⟨names, hnames, hreached⟩ := hp f hf
      exact ⟨names, hnames, hreached.grows hgrown.view⟩
    · rw [List.mem_singleton.mp hf]
      exact ⟨names, hpath, hreached⟩

theorem addHardlink_step (h : Built lo depth 0 b) (hp : Placed b) (hat : At lo depth left b dir path) :
    Step lo depth 0 b (addHardlink o dir b) := by
  obtain ⟨k, hk, hmem⟩ := @target_spec o b
  unfold addHardlink
  cases htgt : b.target o with
  | mk picked b1 =>
    rw [htgt] at hk hmem
    obtain rfl : b1 = { b with drawn := k } := hk
    cases picked with
    | none => exact (Step.refl h hp).drawn k
    | some tgt =>
      obtain ⟨-, hfile⟩ := h.files tgt (hmem tgt rfl)
      have hgrown := @PrfsStore.Sound.link_grown b.fs lo _ _ depth (b.id + 1) dir tgt.node .hardlink h.sound h.tree hat.isDir hat.ours
        (unused_next (by decide)) (fun name hname => used_next (by decide) name hname) hfile
      exact Step.of_grown h hp rfl hgrown

theorem addSymlink_step (h : Built lo depth 0 b) (hp : Placed b) (hat : At lo depth left b dir path)
    (hroom : b.fs.next.toNat + 1 ≤ 2 ^ 63) : Step lo depth 1 b (addSymlink o dir b) := by
  obtain ⟨k, hk, hmem⟩ := @target_spec o b
  unfold addSymlink
  cases htgt : b.target o with
  | mk picked b1 =>
    rw [htgt] at hk hmem
    obtain rfl : b1 = { b with drawn := k } := hk
    cases picked with
    | none => exact ((Step.refl h hp).drawn k).mono (Nat.zero_le 1)
    | some tgt =>
      obtain ⟨-, hfile⟩ := h.files tgt (hmem tgt rfl)
      obtain ⟨aim, haim, hreached⟩ := hp tgt (hmem tgt rfl)
      obtain ⟨hgrown, -⟩ := @At.made_next _ _ _ _ _ _ _ .LNK tgt.path .symlink _ (by decide) hat h (.symlink tgt.path) hroom
        fun _ => ⟨aim, tgt.node.id, haim, hreached, hfile⟩
      exact Step.of_grown h hp rfl hgrown

/-- The ids that the files and the links of one directory take at most. -/
def fillRoom (o : BigTreeOptions) : Nat := o.maxFiles.toNat + (o.maxFiles.tdiv 3).toNat

theorem toNat_randi_le (hfair : Fair o) (b : BigTree) (hi : Int) : (b.randi o 0 hi).1.toNat ≤ hi.toNat := by
  have hle := (randi_le hfair b 0 hi).2
  omega

theorem fill_step (hfair : Fair o) (h : Built lo depth 0 b) (hp : Placed b) (hat : At lo depth left b dir path)
    (hroom : b.fs.next.toNat + fillRoom o ≤ 2 ^ 63) : Step lo depth (fillRoom o) b (fill o dir path b) := by
  unfold fillRoom at *
  have hnf := toNat_randi_le hfair b o.maxFiles
  have h0 := (Step.refl h hp).randi (o := o) 0 o.maxFiles
  unfold fill
  dsimp only
  generalize (b.randi o 0 o.maxFiles).1 = nf at *
  generalize (b.randi o 0 o.maxFiles).2 = b0 at *
  have hat0 := hat.grows h0.grown.view
  have hnext0 := h0.grown.next
  have hfiles := @iterate_step lo depth 1 b0 _ (fun b hb hp hg hroom => addFile_step hb hp (hat0.grows hg) hroom) h0.built h0.placed
    nf.toNat (by omega)
  have h1 := h0.trans hfiles
  generalize (addFile dir path)^[nf.toNat] b0 = b1 at *
  split_ifs
  · exact h1.mono (by omega)
  · have h2 := h1.randi (o := o) 0 (o.maxFiles.tdiv 4)
    generalize (b1.randi o 0 (o.maxFiles.tdiv 4)).1 = nh at *
    generalize (b1.randi o 0 (o.maxFiles.tdiv 4)).2 = b2 at *
    have hat2 := hat.grows h2.grown.view
    have hnext2 := h2.grown.next
    have hlinks := @iterate_step lo depth 0 b2 _ (fun b hb hp hg _ => addHardlink_step (o := o) hb hp (hat2.grows hg)) h2.built h2.placed
      nh.toNat (by omega)
    have h3 := h2.trans hlinks
    generalize (addHardlink o dir)^[nh.toNat] b2 = b3 at *
    have hns := toNat_randi_le hfair b3 (o.maxFiles.tdiv 3)
    have h4 := h3.randi (o := o) 0 (o.maxFiles.tdiv 3)
    generalize (b3.randi o 0 (o.maxFiles.tdiv 3)).1 = ns at *
    generalize (b3.randi o 0 (o.maxFiles.tdiv 3)).2 = b4 at *
    have hat4 := hat.grows h4.grown.view
    have hnext4 := h4.grown.next
    have hsyms := @iterate_step lo depth 1 b4 _ (fun b hb hp hg hroom => addSymlink_step (o := o) hb hp (hat4.grows hg) hroom) h4.built
      h4.placed ns.toNat (by omega)
    exact (h4.trans hsyms).mono (by omega)

theorem addDir_step {build : Node → Bytes → BigTree → BigTree} (hbuild : ∀ d p b, Built lo depth 0 b → Placed b →
    At lo depth left b d p → b.fs.next.toNat + n ≤ 2 ^ 63 → Step lo depth n b (build d p b)) (h : Built lo depth 0 b) (hp : Placed b)
    (hat : At lo depth (left + 1) b dir path) (hroom : b.fs.next.toNat + (1 + n) ≤ 2 ^ 63) :
    Step lo depth (1 + n) b (addDir build dir path b) := by
  obtain ⟨hgrown, ⟨names, hpath, hreached, hlen⟩, hdir⟩ :=
    @At.made_next _ _ _ _ _ _ _ .DIR [] .dir _ (by decide) hat h .dir (by omega) fun hlnk => by cases hlnk
  have hadd : addDir build dir path b = build ⟨b.fs.next, LATEST⟩ (under path (Label.dir.name (b.id + 1))) { b with
      id := b.id + 1
      dirs := b.dirs + 1
      fs := ((b.fs.alloc .DIR [] 0).2.link dir (Label.dir.name (b.id + 1)) ⟨b.fs.next, LATEST⟩).2 } := rfl
  rw [hadd]
  generalize ((b.fs.alloc .DIR [] 0).2.link dir (Label.dir.name (b.id + 1)) ⟨b.fs.next, LATEST⟩).2 = t at *
  have hstep : Step lo depth 1 b { b with id := b.id + 1, dirs := b.dirs + 1, fs := t } := Step.of_grown h hp rfl hgrown
  have hat' : At lo depth left { b with id := b.id + 1, dirs := b.dirs + 1, fs := t } ⟨b.fs.next, LATEST⟩
      (under path (Label.dir.name (b.id + 1))) := ⟨⟨names, hpath, hreached, by omega⟩, hdir, .inr h.start⟩
  have hnext := hgrown.next
  exact hstep.trans (hbuild _ _ _ hstep.built hstep.placed hat' (by
    show t.next.toNat + n ≤ 2 ^ 63
    omega))

/-- The ids that a directory with `left` levels below it takes at most. -/
def room (o : BigTreeOptions) : Nat → Nat
  | 0 => fillRoom o
  | left + 1 => fillRoom o + (max 1 o.maxDirs).toNat * (1 + room o left)

theorem buildDir_step (hfair : Fair o) (h : Built lo depth 0 b) (hp : Placed b) (hat : At lo depth left b dir path)
    (hroom : b.fs.next.toNat + room o left ≤ 2 ^ 63) : Step lo depth (room o left) b (buildDir o left dir path b) := by
  induction left generalizing dir path b with
  | zero => exact fill_step hfair h hp hat hroom
  | succ left ih =>
    unfold room at hroom ⊢
    have hfill := fill_step hfair h hp hat (by omega)
    have h0 := hfill.randi (o := o) 1 o.maxDirs
    have hle := (randi_le hfair (fill o dir path b) 1 o.maxDirs).2
    unfold buildDir
    dsimp only
    generalize ((fill o dir path b).randi o 1 o.maxDirs).1 = nd at *
    generalize ((fill o dir path b).randi o 1 o.maxDirs).2 = b0 at *
    have hat0 := hat.grows h0.grown.view
    have hnext := h0.grown.next
    have hcount : nd.toNat * (1 + room o left) ≤ (max 1 o.maxDirs).toNat * (1 + room o left) :=
      Nat.mul_le_mul_right _ (by omega)
    have hdirs := @iterate_step lo depth (1 + room o left) b0 _ (fun b hb hp hg hroom =>
      addDir_step (fun d p b hb hp hat hroom => ih hb hp hat hroom) hb hp (hat0.grows hg) hroom) h0.built h0.placed nd.toNat (by omega)
    exact (h0.trans hdirs).mono (by omega)

end BigTree

end Prfs
