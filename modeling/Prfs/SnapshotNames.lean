import Prfs.PagedListing

namespace Prfs

/-- A non-empty string of decimal digits. -/
def Numeral (s : Bytes) : Prop := s ≠ [] ∧ ∀ c ∈ s, 48 ≤ c ∧ c ≤ 57

/-- The number that a string of decimal digits stands for. -/
def numeralValue (s : Bytes) : Nat := s.foldl (fun v c => v * 10 + (c - 48).toNat) 0

/-- No zero in front of further digits, and a value in the range of snapshot ids. -/
def Plain (s : Bytes) : Prop := (s.head? = some 48 → s = [48]) ∧ numeralValue s < 2 ^ 64

theorem foldl_none (cs : Bytes) :
    cs.foldl (fun (acc : Option SnapId) c => acc.bind (fun v =>
      if c < 48 ∨ 57 < c then none else some (v * 10 + (c - 48).toUInt64))) none = none := by
  induction cs with
  | nil => rfl
  | cons c cs ih => exact ih

theorem digit_value (v : Nat) (c : UInt8) :
    UInt64.ofNat v * 10 + (c - 48).toUInt64 = UInt64.ofNat (v * 10 + (c - 48).toNat) := by
  rw [UInt64.ofNat_add, UInt64.ofNat_mul, UInt64.ofNat_uInt8ToNat]
  rfl

/-- The accumulator is the value so far modulo 2^64, up to a byte that is no digit. -/
theorem foldl_digits (cs : Bytes) (v : Nat) :
    let x := cs.foldl (fun (acc : Option SnapId) c => acc.bind (fun v =>
      if c < 48 ∨ 57 < c then none else some (v * 10 + (c - 48).toUInt64))) (some (UInt64.ofNat v))
    ((∀ c ∈ cs, 48 ≤ c ∧ c ≤ 57) → x = some (UInt64.ofNat (cs.foldl (fun v c => v * 10 + (c - 48).toNat) v))) ∧
      ((¬ ∀ c ∈ cs, 48 ≤ c ∧ c ≤ 57) → x = none) := by
  induction cs generalizing v with
  | nil => simp
  | cons c cs ih =>
    dsimp only
    rw [List.foldl_cons, Option.bind_some]
    by_cases hc : c < 48 ∨ 57 < c
    · have hbad : ¬ ∀ x ∈ c :: cs, 48 ≤ x ∧ x ≤ 57 := by
        intro h
        obtain ⟨hlo, hhi⟩ := h c (by simp)
        rcases hc with hc | hc
        · exact absurd hlo (not_le.mpr hc)
        · exact absurd hhi (not_le.mpr hc)
      rw [if_pos hc, foldl_none]
      exact ⟨fun h => absurd h hbad, fun _ => rfl⟩
    · have hgood : 48 ≤ c ∧ c ≤ 57 := by
        rw [not_or, not_lt, not_lt] at hc
        exact hc
      rw [if_neg hc, digit_value]
      simpa [hgood] using ih (v * 10 + (c - 48).toNat)

instance Numeral.decidable (s : Bytes) : Decidable (Numeral s) :=
  inferInstanceAs (Decidable (s ≠ [] ∧ ∀ c ∈ s, 48 ≤ c ∧ c ≤ 57))

instance Plain.decidable (s : Bytes) : Decidable (Plain s) :=
  inferInstanceAs (Decidable ((s.head? = some 48 → s = [48]) ∧ numeralValue s < 2 ^ 64))

/-- The parser takes every numeral, whatever its spelling, modulo 2^64. -/
theorem parseSnap_eq (s : Bytes) : parseSnap s = if Numeral s then some (UInt64.ofNat (numeralValue s)) else none := by
  cases s with
  | nil => rfl
  | cons c cs =>
    obtain ⟨hgood, hbad⟩ := foldl_digits (c :: cs) 0
    rw [parseSnap, if_neg (by simp)]
    split_ifs with hn
    · exact hgood hn.2
    · exact hbad fun h => hn ⟨by simp, h⟩

/-- The digits of a numeral, the last one first. -/
def digitsOf (s : Bytes) : List Nat := (s.map (fun c => (c - 48).toNat)).reverse

theorem digit_lt {c : UInt8} (h : 48 ≤ c ∧ c ≤ 57) : (c - 48).toNat < 10 ∧ UInt8.ofNat (48 + (c - 48).toNat) = c := by
  obtain ⟨hlo, hhi⟩ := h
  have hsub : (c - 48).toNat = c.toNat - 48 := UInt8.toNat_sub_of_le _ _ hlo
  rw [UInt8.le_iff_toNat_le] at hlo hhi
  have hlo' : 48 ≤ c.toNat := hlo
  have hhi' : c.toNat ≤ 57 := hhi
  refine ⟨by omega, ?_⟩
  rw [hsub, Nat.add_sub_cancel' hlo', UInt8.ofNat_toNat]

theorem numeralValue_eq (s : Bytes) : numeralValue s = Nat.ofDigits 10 (digitsOf s) := by
  unfold numeralValue digitsOf
  induction s using List.reverseRecOn with
  | nil => rfl
  | append_singleton s c ih =>
    rw [List.foldl_append, ih]
    simp only [List.foldl_cons, List.foldl_nil, List.map_append, List.map_cons, List.map_nil, List.reverse_append,
      List.reverse_singleton, List.singleton_append, Nat.ofDigits_cons]
    omega

theorem digitsOf_lt {s : Bytes} (h : Numeral s) : ∀ d ∈ digitsOf s, d < 10 := by
  intro d hd
  obtain ⟨c, hc, rfl⟩ := List.mem_map.mp (List.mem_reverse.mp hd)
  exact (digit_lt (h.2 c hc)).1

theorem map_digitsOf {s : Bytes} (h : Numeral s) :
    ((digitsOf s).map (fun d => UInt8.ofNat (48 + d))).reverse = s := by
  rw [digitsOf, ← List.map_reverse, List.reverse_reverse, List.map_map]
  refine (List.map_congr_left fun c hc => ?_).trans (List.map_id s)
  exact (digit_lt (h.2 c hc)).2

theorem getLast_digitsOf (s : Bytes) : (digitsOf s).getLast? = s.head?.map (fun c => (c - 48).toNat) := by
  rw [digitsOf, List.getLast?_reverse, List.head?_map]

theorem digitsOf_toString {n : SnapId} (hn : n ≠ 0) : digitsOf (toString n) = Nat.digits 10 n.toNat := by
  rw [toString, if_neg hn, digitsOf, ← List.map_reverse, List.reverse_reverse, List.map_map]
  refine (List.map_congr_left fun d hd => ?_).trans (List.map_id _)
  have hlt : d < 10 := Nat.digits_lt_base (by decide) hd
  have hval := congrArg UInt64.toNat (digit_read d hlt).2
  rw [UInt64.toNat_ofNat_of_lt' (by simp only [UInt64.size]; omega)] at hval
  exact hval

/-- What is printed is plain. -/
theorem plain_toString (n : SnapId) : Plain (toString n) := by
  by_cases hn : n = 0
  · subst hn
    decide
  · have hdigits := digitsOf_toString hn
    refine ⟨fun hhead => ?_, ?_⟩
    · -- the first digit printed is the last of `Nat.digits`, which is no zero
      have hlast := getLast_digitsOf (toString n)
      rw [hhead, hdigits] at hlast
      have hne : n.toNat ≠ 0 := fun h => hn (UInt64.toNat_inj.mp h)
      have hnil : Nat.digits 10 n.toNat ≠ [] := Nat.digits_ne_nil_iff_ne_zero.mpr hne
      rw [List.getLast?_eq_some_getLast hnil, Option.map_some, Option.some.injEq] at hlast
      exact absurd hlast (Nat.getLast_digit_ne_zero 10 hne)
    · rw [numeralValue_eq, hdigits, Nat.ofDigits_digits]
      exact n.toNat_lt

/-- A numeral is what is printed of its value exactly when it is plain. -/
theorem toString_numeralValue_iff {s : Bytes} (h : Numeral s) :
    toString (UInt64.ofNat (numeralValue s)) = s ↔ Plain s := by
  constructor
  · intro hs
    rw [← hs]
    exact plain_toString _
  · rintro ⟨hhead, hlt⟩
    by_cases hz : s.head? = some 48
    · rw [hhead hz]
      decide
    · have hlast : ∀ hne : digitsOf s ≠ [], (digitsOf s).getLast hne ≠ 0 := by
        intro hne h0
        have hl := getLast_digitsOf s
        rw [List.getLast?_eq_some_getLast hne, h0, eq_comm, Option.map_eq_some_iff] at hl
        obtain ⟨c, hc, hval⟩ := hl
        have hback := (digit_lt (h.2 c (List.mem_of_head? hc))).2
        rw [hval] at hback
        exact hz (hc.trans (congrArg some hback.symm))
      have hdigits := Nat.digits_ofDigits 10 (by decide) (digitsOf s) (digitsOf_lt h) hlast
      have hnat : (UInt64.ofNat (numeralValue s)).toNat = numeralValue s := UInt64.toNat_ofNat_of_lt' hlt
      have hne : UInt64.ofNat (numeralValue s) ≠ 0 := by
        intro h0
        have hzero : numeralValue s = 0 := by
          rw [← hnat, h0]
          rfl
        rw [← numeralValue_eq, hzero, Nat.digits_zero, eq_comm] at hdigits
        have hs : s = [] := by simpa [digitsOf] using hdigits
        exact h.1 hs
      rw [toString, if_neg hne, hnat, numeralValue_eq, hdigits, map_digitsOf h]

theorem isSnapDir_or (d : UInt64) : isSnapDir (d ||| SNAP_BIT) = true := by
  have hbit : (d ||| SNAP_BIT) &&& SNAP_BIT = SNAP_BIT := by
    refine UInt64.eq_of_toBitVec_eq (BitVec.eq_of_getLsbD_eq fun i _ => ?_)
    simp only [UInt64.toBitVec_and, UInt64.toBitVec_or, BitVec.getLsbD_and, BitVec.getLsbD_or]
    cases SNAP_BIT.toBitVec.getLsbD i <;> simp
  rw [isSnapDir, hbit]
  decide

/-- The base of a synthesized directory is the directory it was found in. -/
theorem snapBase_or {d : UInt64} (hd : isSnapDir d = false) : snapBase (d ||| SNAP_BIT) = d := by
  have hzero : d &&& SNAP_BIT = 0 := by simpa [isSnapDir] using hd
  refine UInt64.eq_of_toBitVec_eq (BitVec.eq_of_getLsbD_eq fun i hi => ?_)
  have hi0 := congrArg (fun x : UInt64 => x.toBitVec.getLsbD i) hzero
  simp only [UInt64.toBitVec_and, BitVec.getLsbD_and] at hi0
  simp only [snapBase, UInt64.toBitVec_and, UInt64.toBitVec_or, UInt64.toBitVec_not, BitVec.getLsbD_and,
    BitVec.getLsbD_or, BitVec.getLsbD_not]
  cases hb : SNAP_BIT.toBitVec.getLsbD i with
  | false => simp [hi]
  | true =>
    rw [hb, Bool.and_true] at hi0
    simp [hi0]

theorem snapBase_of_real {id : UInt64} (hd : isSnapDir id = false) : snapBase id = id := by
  have hbits : snapBase id = snapBase (id ||| SNAP_BIT) := by
    refine UInt64.eq_of_toBitVec_eq (BitVec.eq_of_getLsbD_eq fun i hi => ?_)
    simp only [snapBase, UInt64.toBitVec_and, UInt64.toBitVec_or, UInt64.toBitVec_not, BitVec.getLsbD_and, BitVec.getLsbD_or,
      BitVec.getLsbD_not]
    cases SNAP_BIT.toBitVec.getLsbD i <;> simp
  rw [hbits, snapBase_or hd]

theorem isSnapDir_snapBase (id : UInt64) : isSnapDir (snapBase id) = false := by
  have hzero : snapBase id &&& SNAP_BIT = 0 := by
    calc snapBase id &&& SNAP_BIT = id &&& (~~~SNAP_BIT &&& SNAP_BIT) := UInt64.and_assoc _ _ _
      _ = 0 := UInt64.and_zero
  rw [isSnapDir, hzero]
  decide

namespace PrfsStore

variable {s : PrfsStore} {d : UInt64} {sd : Node} {name : Bytes}

/-- The snapshots that the directory is shown at: sealed ones that it was there at. -/
def ShownAt (s : PrfsStore) (d : UInt64) (n : SnapId) : Prop := (1 ≤ n ∧ n < s.cur) ∧ s.existedAt d n = true

/-- A name is found exactly when it is listed, and what is found is what is listed. -/
def Resolves (s : PrfsStore) (sd : Node) (name : Bytes) : Prop :=
  ((∃ x, s.lookup sd name = some x) ↔ name ∈ (s.readdir sd).map Prod.fst) ∧
    ∀ x, s.lookup sd name = some x → (name, x) ∈ s.readdir sd

theorem lookup_snapDir (hd : isSnapDir d = false) {g : SnapId} {x : Node} :
    s.lookup ⟨d ||| SNAP_BIT, g⟩ name = some x ↔
      Numeral name ∧ s.ShownAt d (UInt64.ofNat (numeralValue name)) ∧ x = ⟨d, UInt64.ofNat (numeralValue name)⟩ := by
  simp only [lookup, isSnapDir_or, if_true, snapBase_or hd, parseSnap_eq]
  by_cases hn : Numeral name
  · rw [if_pos hn]
    dsimp only
    simp only [ShownAt, hn, true_and]
    split_ifs with hout
    · refine iff_of_false (by simp) fun h => ?_
      rcases hout with hlo | hhi | hno
      · exact absurd h.1.1.1 (not_le.mpr hlo)
      · exact absurd h.1.1.2 (not_lt.mpr hhi)
      · exact hno h.1.2
    · rw [not_or, not_or, not_lt, not_le, not_not] at hout
      rw [Option.some.injEq, eq_comm]
      exact ⟨fun h => ⟨⟨⟨hout.1, hout.2.1⟩, hout.2.2⟩, h⟩, fun h => h.2⟩
  · rw [if_neg hn]
    simp [hn]

theorem mem_readdir_snapDir (hd : isSnapDir d = false) {g : SnapId} {x : Node} :
    (name, x) ∈ s.readdir ⟨d ||| SNAP_BIT, g⟩ ↔ ∃ n, s.ShownAt d n ∧ name = toString n ∧ x = ⟨d, n⟩ := by
  simp only [readdir, isSnapDir_or, if_true, snapBase_or hd, snapEntries, List.mem_map, List.mem_filter, mem_snapRange,
    ShownAt, Prod.mk.injEq]
  refine exists_congr fun n => ?_
  rw [eq_comm (a := toString n), eq_comm (a := (⟨d, n⟩ : Node))]

/-- The synthesized directory resolves a name as it lists it exactly when the name is no other spelling, by zeros in
front or by a value past 2^64, of a snapshot that the directory is shown at. -/
theorem resolves_iff (hs : Run empty s) (hd : (viewAt s.kv s.cur).IsDir d)
    (hsd : s.lookup ⟨d, LATEST⟩ SNAPSHOT_NAME = some sd) (name : Bytes) :
    s.Resolves sd name ↔
      (Numeral name → Plain name ∨ ¬ s.ShownAt d (UInt64.ofNat (numeralValue name))) := by
  obtain ⟨r, hr, -⟩ := id hd
  have hreal := hs.sound.not_isSnapDir hr
  rw [lookup_view hreal, rr_latest, if_pos ⟨rfl, rfl, hd⟩, Option.some.injEq] at hsd
  subst hsd
  have hlisted : name ∈ (s.readdir ⟨d ||| SNAP_BIT, LATEST⟩).map Prod.fst ↔
      ∃ n, s.ShownAt d n ∧ name = toString n := by
    simp only [List.mem_map, Prod.exists, exists_and_right, exists_eq_right, mem_readdir_snapDir hreal]
    exact ⟨fun ⟨x, n, hn, hname, _⟩ => ⟨n, hn, hname⟩, fun ⟨n, hn, hname⟩ => ⟨_, n, hn, hname, rfl⟩⟩
  have hprinted : ∀ n, Numeral (toString n) ∧ UInt64.ofNat (numeralValue (toString n)) = n := by
    intro n
    have hp := parseSnap_toString n
    rw [parseSnap_eq] at hp
    split_ifs at hp with hnum
    exact ⟨hnum, Option.some.inj hp⟩
  constructor
  · rintro ⟨hiff, -⟩ hnum
    by_cases hshown : s.ShownAt d (UInt64.ofNat (numeralValue name))
    · obtain ⟨n, -, rfl⟩ := hlisted.mp (hiff.mp ⟨_, (lookup_snapDir hreal).mpr ⟨hnum, hshown, rfl⟩⟩)
      exact Or.inl (plain_toString n)
    · exact Or.inr hshown
  · intro hplain
    have hfound : ∀ x, s.lookup ⟨d ||| SNAP_BIT, LATEST⟩ name = some x →
        (name, x) ∈ s.readdir ⟨d ||| SNAP_BIT, LATEST⟩ := by
      intro x hx
      obtain ⟨hnum, hshown, rfl⟩ := (lookup_snapDir hreal).mp hx
      have hname := (toString_numeralValue_iff hnum).mpr ((hplain hnum).resolve_right (not_not.mpr hshown))
      exact (mem_readdir_snapDir hreal).mpr ⟨_, hshown, hname.symm, rfl⟩
    refine ⟨⟨fun ⟨x, hx⟩ => List.mem_map.mpr ⟨_, hfound x hx, rfl⟩, fun hl => ?_⟩, hfound⟩
    obtain ⟨n, hn, rfl⟩ := hlisted.mp hl
    obtain ⟨hnum, hval⟩ := hprinted n
    exact ⟨⟨d, n⟩, (lookup_snapDir hreal).mpr ⟨hnum, by rwa [hval], by rw [hval]⟩⟩

/-- One snapshot of the root. -/
def sealedOnce : PrfsStore := empty.after [.snapshot []]

theorem resolves_iff_one : sealedOnce.Resolves ⟨1 ||| SNAP_BIT, LATEST⟩ [49] := by
  refine (resolves_iff (d := 1) (run_after (by decide)) (viewAt_isDir.mpr (by decide)) (by decide) [49]).mpr fun _ => ?_
  exact Or.inl (by decide)

/-- "18446744073709551617" is found as snapshot 1 and not listed. -/
theorem wrapped_name_resolves :
    let name : Bytes := ascii ['1', '8', '4', '4', '6', '7', '4', '4', '0', '7', '3', '7', '0', '9', '5', '5', '1', '6', '1', '7']
    Run empty sealedOnce ∧ sealedOnce.lookup ⟨1, LATEST⟩ SNAPSHOT_NAME = some ⟨1 ||| SNAP_BIT, LATEST⟩ ∧
      sealedOnce.lookup ⟨1 ||| SNAP_BIT, LATEST⟩ name = some ⟨1, 1⟩ ∧
      sealedOnce.lookup ⟨1 ||| SNAP_BIT, LATEST⟩ (ascii ['0', '1']) = some ⟨1, 1⟩ ∧
      sealedOnce.readdir ⟨1 ||| SNAP_BIT, LATEST⟩ = [([49], ⟨1, 1⟩)] ∧
      ¬ sealedOnce.Resolves ⟨1 ||| SNAP_BIT, LATEST⟩ name := by
  refine ⟨run_after (by decide), by decide, by decide, by decide, by decide, fun h => ?_⟩
  have hmem := h.2 ⟨1, 1⟩ (by decide)
  revert hmem
  decide

end PrfsStore

end Prfs
