import Prfs.Loader

namespace Prfs

def Impl.needs (s : Impl) : Resource := .plugin s.plugin

namespace Registry

variable {m : Registry} {key : Bytes ×ₗ Bytes} {keys : List (Bytes ×ₗ Bytes)}

theorem get_provides (m : Registry) (keys : List (Bytes ×ₗ Bytes)) (p : Nat) (key : Bytes ×ₗ Bytes) :
    (keys.foldl (fun m key => m.provide ⟨p, key⟩) m).get key = if key ∈ keys then some ⟨p, key⟩ else m.get key := by
  induction keys generalizing m with
  | nil => rfl
  | cons k keys ih =>
    rw [List.foldl_cons, ih, provide, OrdMap.get_put]
    by_cases hk : key = k
    · subst hk
      simp
    · simp [hk]

theorem get_withdraws (m : Registry) (keys : List (Bytes ×ₗ Bytes)) (key : Bytes ×ₗ Bytes) :
    (keys.foldl withdraw m).get key = if key ∈ keys then none else m.get key := by
  induction keys generalizing m with
  | nil => rfl
  | cons k keys ih =>
    rw [List.foldl_cons, ih, withdraw, OrdMap.get_del]
    by_cases hk : key = k
    · subst hk
      simp
    · simp [hk]

theorem get_of_resolveAll {id : Bytes} {s : Impl} (h : s ∈ m.resolveAll id) : ∃ key, m.get key = some s := by
  obtain ⟨e, he, rfl⟩ := List.mem_map.mp h
  exact ⟨e.1, OrdMap.mem_iff_get.mp (List.mem_of_mem_filter he)⟩

end Registry

/-- What the loader releases for an entry, in order. -/
def LoaderEntry.resources (e : LoaderEntry) : List Resource :=
  (if e.destroy then [.plugin e.plugin] else []) ++ e.handle.toList.map .library

namespace Loader

/-- The ledger of what the loader has done agrees with its tables, and each name is provided by the last plugin that provides it. -/
structure Tracks (l : Loader) (g : Ledger Resource Impl) : Prop where
  held : g.held = l.entries.reverse.flatMap LoaderEntry.resources
  lent : g.lent = (l.entries.reverse.filter fun e => !e.destroy).map fun e => .plugin e.plugin
  running : g.running = l.started.reverse
  plugins : ∀ e ∈ l.entries, e.plugin < l.plugins
  handles : ∀ e ∈ l.entries, ∀ h, e.handle = some h → h < l.handles
  last : ∀ key, l.registry.get key = (l.entries.reverse.find? fun e => key ∈ e.provides).map fun e => ⟨e.plugin, key⟩
  started : ∀ s ∈ l.started, ∃ e ∈ l.entries, e.plugin = s.plugin

namespace Tracks

variable {l : Loader} {g : Ledger Resource Impl}

theorem registered (h : l.Tracks g) {key : Bytes ×ₗ Bytes} {i : Impl} (hi : l.registry.get key = some i) :
    i.key = key ∧ ∃ e ∈ l.entries, e.plugin = i.plugin ∧ key ∈ e.provides := by
  rw [h.last] at hi
  obtain ⟨e, he, rfl⟩ := Option.map_eq_some_iff.mp hi
  have hkey := List.find?_some he
  exact ⟨rfl, e, List.mem_reverse.mp (List.mem_of_find?_eq_some he), rfl, by simpa using hkey⟩

/-- The plugin of an entry is there. -/
theorem has_plugin (h : l.Tracks g) {e : LoaderEntry} (he : e ∈ l.entries) : g.Has (.plugin e.plugin) := by
  have hmem : e ∈ l.entries.reverse := List.mem_reverse.mpr he
  cases hd : e.destroy with
  | true =>
    refine .inl ?_
    rw [h.held]
    refine List.mem_flatMap.mpr ⟨e, hmem, ?_⟩
    rw [LoaderEntry.resources, hd]
    exact List.mem_cons_self
  | false =>
    refine .inr ?_
    rw [h.lent]
    exact List.mem_map.mpr ⟨e, List.mem_filter.mpr ⟨hmem, by rw [hd]; rfl⟩, rfl⟩

theorem has_service (h : l.Tracks g) {id : Bytes} {s : Impl} (hs : s ∈ l.registry.resolveAll id) : g.Has s.needs := by
  obtain ⟨key, hkey⟩ := Registry.get_of_resolveAll hs
  obtain ⟨-, e, he, hp, -⟩ := h.registered hkey
  have hhas := h.has_plugin he
  rw [hp] at hhas
  exact hhas

theorem fresh_plugin (h : l.Tracks g) : ¬ g.Has (.plugin l.plugins) := by
  intro hhas
  rcases hhas with hheld | hlent
  · rw [h.held] at hheld
    obtain ⟨e, he, hr⟩ := List.mem_flatMap.mp hheld
    have hlt := h.plugins e (List.mem_reverse.mp he)
    rw [LoaderEntry.resources] at hr
    rcases List.mem_append.mp hr with hr | hr
    · split_ifs at hr
      · have hp := Resource.plugin.inj (List.mem_singleton.mp hr)
        omega
      · cases hr
    · obtain ⟨x, -, hx⟩ := List.mem_map.mp hr
      cases hx
  · rw [h.lent] at hlent
    obtain ⟨e, he, hr⟩ := List.mem_map.mp hlent
    have hlt := h.plugins e (List.mem_reverse.mp (List.mem_of_mem_filter he))
    have hp := Resource.plugin.inj hr
    omega

theorem fresh_library (h : l.Tracks g) : ¬ g.Has (.library l.handles) := by
  intro hhas
  rcases hhas with hheld | hlent
  · rw [h.held] at hheld
    obtain ⟨e, he, hr⟩ := List.mem_flatMap.mp hheld
    rw [LoaderEntry.resources] at hr
    rcases List.mem_append.mp hr with hr | hr
    · split_ifs at hr
      · cases List.mem_singleton.mp hr
      · cases hr
    · obtain ⟨x, hx, hr⟩ := List.mem_map.mp hr
      cases hr
      have hlt := h.handles e (List.mem_reverse.mp he) _ (Option.mem_toList.mp hx)
      omega
  · rw [h.lent] at hlent
    obtain ⟨e, -, hr⟩ := List.mem_map.mp hlent
    cases hr

/-- An entry is pushed for a plugin that has just been created. -/
theorem push (h : l.Tracks g) (keys : List (Bytes ×ₗ Bytes)) (destroy : Bool) (handle : Option Nat) {n : Nat}
    (hle : l.handles ≤ n) (hn : ∀ x, handle = some x → x < n) :
    Tracks { l.create keys with handles := n, entries := l.entries ++ [⟨l.plugins, keys, destroy, handle⟩] }
      { g with
        held := LoaderEntry.resources ⟨l.plugins, keys, destroy, handle⟩ ++ g.held
        lent := if destroy then g.lent else .plugin l.plugins :: g.lent } := by
  refine ⟨?_, ?_, h.running, fun e he => ?_, fun e he x hx => ?_, fun key => ?_, fun s hs => ?_⟩
  · rw [h.held, List.reverse_append]
    rfl
  · rw [h.lent, List.reverse_append]
    cases destroy with
    | true => rfl
    | false => rfl
  · show e.plugin < l.plugins + 1
    rcases List.mem_append.mp he with he | he
    · have hlt := h.plugins e he
      omega
    · cases List.mem_singleton.mp he
      exact Nat.lt_succ_self _
  · rcases List.mem_append.mp he with he | he
    · exact lt_of_lt_of_le (h.handles e he x hx) hle
    · cases List.mem_singleton.mp he
      exact hn x hx
  · rw [List.reverse_append]
    show (keys.foldl (fun m key => m.provide ⟨l.plugins, key⟩) l.registry).get key = _
    rw [Registry.get_provides, h.last, List.reverse_singleton, List.singleton_append, List.find?_cons]
    by_cases hkey : key ∈ keys
    · simp [hkey]
    · simp [hkey]
  · obtain ⟨e, he, hp⟩ := h.started s hs
    exact ⟨e, List.mem_append_left _ he, hp⟩

/-- What the loader does at an action keeps to the rules, and the ledger goes on agreeing with its tables. -/
theorem step (h : l.Tracks g) (a : Action) :
    ∃ g', Ledger.run Impl.needs g (l.step a).2 = some g' ∧ Tracks (l.step a).1 g' := by
  cases a with
  | load lib =>
    cases lib with
    | none => exact ⟨g, rfl, h⟩
    | some lib =>
      have hrefused : ∃ g', Ledger.run Impl.needs g [.acquire (.library l.handles), .release (.library l.handles)] = some g' ∧
          Tracks { l with handles := l.handles + 1 } g' := by
        have hfree : ∀ s ∈ g.running, s.needs ≠ .library l.handles := by
          intro s _ hs
          cases hs
        refine ⟨g, ?_, h.held, h.lent, h.running, h.plugins, fun e he x hx => ?_, h.last, h.started⟩
        · rw [Ledger.run_acquire h.fresh_library]
          exact Ledger.run_release rfl hfree
        · have hlt := h.handles e he x hx
          exact Nat.lt_succ_of_lt hlt
      unfold Loader.step load
      dsimp only
      split_ifs
      · exact hrefused
      · exact hrefused
      · have hnew : ¬ Ledger.Has { g with held := .library l.handles :: g.held } (.plugin l.plugins) := by
          rintro (hheld | hlent)
          · rcases List.mem_cons.mp hheld with hp | hheld
            · cases hp
            · exact h.fresh_plugin (.inl hheld)
          · exact h.fresh_plugin (.inr hlent)
        refine ⟨_, ?_, h.push lib.provides true (some l.handles) (Nat.le_succ l.handles) fun x hx => ?_⟩
        · rw [Ledger.run_acquire h.fresh_library, Ledger.run_acquire hnew]
          rfl
        · obtain rfl := Option.some.inj hx
          exact Nat.lt_succ_self _
  | adopt keys =>
    refine ⟨_, Ledger.run_lend h.fresh_plugin, h.push keys false none le_rfl fun x hx => ?_⟩
    cases hx
  | startServices ok =>
    have hhas : ∀ s ∈ l.registry.resolveAll IService.ID, g.Has s.needs := fun s hs => h.has_service hs
    refine ⟨_, Ledger.run_starts ok hhas, h.held, h.lent, ?_, h.plugins, h.handles, h.last, fun s hs => ?_⟩
    · show _ ++ g.running = (l.started ++ _).reverse
      rw [h.running, List.reverse_append]
    · rcases List.mem_append.mp hs with hs | hs
      · exact h.started s hs
      · obtain ⟨key, hkey⟩ := Registry.get_of_resolveAll (List.mem_of_mem_filter hs)
        obtain ⟨-, e, he, hp, -⟩ := h.registered hkey
        exact ⟨e, he, hp⟩
  | stopAll =>
    have hhas : ∀ s ∈ g.running, g.Has s.needs := by
      intro s hs
      rw [h.running] at hs
      obtain ⟨e, he, hp⟩ := h.started s (List.mem_reverse.mp hs)
      have hplugin := h.has_plugin he
      rw [hp] at hplugin
      exact hplugin
    have hstops := Ledger.run_stops hhas
    rw [h.running] at hstops
    refine ⟨_, hstops, h.held, h.lent, rfl, h.plugins, h.handles, h.last, fun s hs => ?_⟩
    cases hs

theorem run (h : l.Tracks g) (as : List Action) :
    ∃ g', Ledger.run Impl.needs g (l.run as).2 = some g' ∧ Tracks (l.run as).1 g' := by
  induction as generalizing l g with
  | nil => exact ⟨g, rfl, h⟩
  | cons a as ih =>
    obtain ⟨g', hrun, h'⟩ := h.step a
    obtain ⟨g'', hrun', h''⟩ := ih h'
    refine ⟨g'', ?_, h''⟩
    rw [Loader.run]
    exact (Ledger.run_append hrun).trans hrun'

theorem init : Tracks {} {} :=
  ⟨rfl, rfl, rfl, fun _ he => absurd he List.not_mem_nil, fun _ he => absurd he List.not_mem_nil, fun _ => rfl,
    fun _ hs => absurd hs List.not_mem_nil⟩

end Tracks

/-- Entries are destroyed and closed from the top of what is held, and their keys are withdrawn. -/
theorem destroyAll_run {es : List LoaderEntry} {l : Loader} {g : Ledger Resource Impl} {rest : List Resource}
    (hheld : g.held = es.flatMap LoaderEntry.resources ++ rest) (hrun : g.running = []) :
    Ledger.run Impl.needs g (l.destroyAll es).2 = some { g with held := rest } ∧
      ∀ key i, (l.destroyAll es).1.registry.get key = some i →
        l.registry.get key = some i ∧ ∀ e ∈ es, e.destroy = true → key ∉ e.provides := by
  induction es generalizing l g with
  | nil =>
    refine ⟨?_, fun key i hi => ⟨hi, fun e he => by cases he⟩⟩
    have hg : g.held = rest := hheld
    rw [← hg]
    rfl
  | cons e es ih =>
    have hfree : ∀ r, ∀ s ∈ g.running, s.needs ≠ r := by
      intro r s hs
      rw [hrun] at hs
      cases hs
    have hone : Ledger.run Impl.needs g (l.destroyEntry e).2 = some { g with held := es.flatMap LoaderEntry.resources ++ rest } := by
      have hclose : ∀ {k : Ledger Resource Impl}, k.held = e.handle.toList.map .library ++ (es.flatMap LoaderEntry.resources ++ rest) →
          k.running = [] → Ledger.run Impl.needs k (e.handle.toList.map fun h => .release (.library h)) =
            some { k with held := es.flatMap LoaderEntry.resources ++ rest } := by
        intro k hk hkrun
        cases hh : e.handle with
        | none =>
          rw [hh] at hk
          have hkh : k.held = es.flatMap LoaderEntry.resources ++ rest := hk
          rw [← hkh]
          rfl
        | some x =>
          rw [hh] at hk
          exact Ledger.run_release hk fun s hs => by rw [hkrun] at hs; cases hs
      rw [List.flatMap_cons, List.append_assoc, LoaderEntry.resources, List.append_assoc] at hheld
      unfold destroyEntry
      dsimp only
      cases hd : e.destroy with
      | true =>
        rw [hd] at hheld
        rw [if_pos rfl]
        dsimp only
        rw [Ledger.run_release hheld (hfree _)]
        exact hclose rfl hrun
      | false =>
        rw [hd] at hheld
        exact hclose hheld hrun
    obtain ⟨hrest, hreg⟩ := @ih (l.destroyEntry e).1 { g with held := es.flatMap LoaderEntry.resources ++ rest } rfl hrun
    refine ⟨?_, fun key i hi => ?_⟩
    · rw [destroyAll]
      exact (Ledger.run_append hone).trans hrest
    · obtain ⟨hget, hes⟩ := hreg key i hi
      unfold destroyEntry at hget
      dsimp only at hget
      cases hd : e.destroy with
      | true =>
        rw [hd, if_pos rfl] at hget
        dsimp only at hget
        rw [Registry.get_withdraws] at hget
        split_ifs at hget with hkey
        refine ⟨hget, fun x hx hxd => ?_⟩
        rcases List.mem_cons.mp hx with rfl | hx
        · exact hkey
        · exact hes x hx hxd
      | false =>
        rw [hd, if_neg Bool.false_ne_true] at hget
        refine ⟨hget, fun x hx hxd => ?_⟩
        rcases List.mem_cons.mp hx with rfl | hx
        · rw [hd] at hxd
          cases hxd
        · exact hes x hx hxd

/-- Whatever the program asks of the loader and whatever the system answers, until the loader is gone: libraries are closed, plugins
destroyed and services stopped in the reverse of their order, each exactly as often as it was opened, created or started; nothing is
used before it is there or after it is gone; plugins of the caller are left to it, and only they still provide anything. On the way a
name is provided by the last plugin that provides it, and the services of a start are one for a name, in the order of the names. -/
theorem lifetimes (as : List Action) :
    let x := run {} as
    let y := x.1.destruct
    (∃ lent, Ledger.run Impl.needs {} (x.2 ++ y.2) = some { lent := lent } ∧
      ∀ key i, y.1.registry.get key = some i → .plugin i.plugin ∈ lent) ∧
    (∀ r, (x.2 ++ y.2).count (.acquire r) = (x.2 ++ y.2).count (.release r)) ∧
    (∀ s, (x.2 ++ y.2).count (.start s) = (x.2 ++ y.2).count (.stop s)) ∧
    (∀ key, x.1.registry.get key = (x.1.entries.reverse.find? fun e => key ∈ e.provides).map fun e => ⟨e.plugin, key⟩) ∧
    ∀ id, (x.1.registry.resolveAll id).Pairwise fun s t => s.key < t.key := by
  obtain ⟨g, hrun, ht⟩ := Tracks.init.run as
  dsimp only
  generalize run {} as = x at *
  obtain ⟨l, events⟩ := x
  dsimp only at *
  have hstop : ∃ g', Ledger.run Impl.needs g l.stopAll.2 = some g' ∧ Tracks l.stopAll.1 g' := ht.step .stopAll
  obtain ⟨g', hstops, ht'⟩ := hstop
  have hheld : g'.held = l.entries.reverse.flatMap LoaderEntry.resources ++ [] := by
    rw [List.append_nil]
    exact ht'.held
  obtain ⟨hdestroy, hreg⟩ := @destroyAll_run l.entries.reverse l.stopAll.1 g' [] hheld ht'.running
  have hall : Ledger.run Impl.needs {} (events ++ l.destruct.2) = some { lent := g'.lent } := by
    have hrest : Ledger.run Impl.needs g l.destruct.2 = some { g' with held := [] } := (Ledger.run_append hstops).trans hdestroy
    rw [Ledger.run_append hrun, hrest]
    have hnone : g'.running = [] := ht'.running
    rw [hnone]
  obtain ⟨hacquired, hstarted⟩ := Ledger.run_count hall
  refine ⟨⟨g'.lent, hall, fun key i hi => ?_⟩, fun r => by simpa using hacquired r, fun s => by simpa using hstarted s, ht.last,
    fun id => ?_⟩
  · obtain ⟨hget, hkept⟩ := hreg key i hi
    obtain ⟨-, e, he, hp, hkey⟩ := ht'.registered hget
    have hd : e.destroy = false := by
      cases hd : e.destroy with
      | false => rfl
      | true => exact absurd hkey (hkept e (List.mem_reverse.mpr he) hd)
    rw [ht'.lent, ← hp]
    exact List.mem_map.mpr ⟨e, List.mem_filter.mpr ⟨List.mem_reverse.mpr he, by rw [hd]; rfl⟩, rfl⟩
  · have hkeys : ∀ e ∈ l.registry.entries, e.2.key = e.1 := fun e he => (ht.registered (OrdMap.mem_iff_get.mp he)).1
    refine List.pairwise_map.mpr ((l.registry.sorted.filter _).imp_of_mem fun {a b} ha hb hab => ?_)
    rw [hkeys a (List.mem_of_mem_filter ha), hkeys b (List.mem_of_mem_filter hb)]
    exact hab

end Loader

end Prfs
