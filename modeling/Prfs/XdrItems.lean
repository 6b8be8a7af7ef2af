import Prfs.XdrTypes

namespace Prfs

inductive ItemKind
  | u32 | u64 | str | fh
  deriving DecidableEq, Repr

/-- A value as a writer appends it in one call. -/
inductive Item
  | u32 (x : UInt32)
  | u64 (x : UInt64)
  | str (s : Bytes)
  | fh (id snap : UInt64)
  deriving DecidableEq, Repr

namespace Item

def kind : Item → ItemKind
  | u32 _ => .u32
  | u64 _ => .u64
  | str _ => .str
  | fh _ _ => .fh

/-- The length of a string can be rounded up in 32 bits. -/
def Short : Item → Prop
  | str s => s.length ≤ 2 ^ 32 - 4
  | _ => True

instance (i : Item) : Decidable i.Short :=
  match i with
  | str s => inferInstanceAs (Decidable (s.length ≤ 2 ^ 32 - 4))
  | u32 _ => isTrue trivial
  | u64 _ => isTrue trivial
  | fh _ _ => isTrue trivial

/-- The bytes of an item by itself, a string padded for its own length. -/
def encode : Item → Bytes
  | u32 x => word x
  | u64 x => be x
  | str s => word (UInt32.ofNat s.length) ++ (s ++ XdrType.padding s.length)
  | fh id snap => Reader.handle id snap

theorem encode_aligned (i : Item) : i.encode.length % 4 = 0 := by
  have hword : ∀ x, (word x).length = 4 := fun _ => rfl
  cases i with
  | u32 x => rw [encode, hword]
  | u64 x => rw [encode, be_length]
  | str s =>
    have hpad := XdrType.padding_aligned s.length
    rw [encode, List.length_append, List.length_append, hword]
    omega
  | fh id snap => rw [encode, Reader.handle, List.length_append, List.length_append, be_length, be_length, hword]

end Item

namespace Writer

def item (w : Writer) : Item → Writer
  | .u32 x => w.u32 x
  | .u64 x => w.u64 x
  | .str s => w.str s
  | .fh id snap => w.fh id snap

def items (w : Writer) (is : List Item) : Writer := is.foldl item w

variable {w : Writer}

/-- On an aligned vector, where an item is written makes no difference to its bytes. -/
theorem item_eq (hw : w.v.length % 4 = 0) (i : Item) : w.item i = w.append i.encode := by
  cases i with
  | u32 x => rfl
  | u64 x => exact w.u64_eq x
  | str s => exact str_eq hw s
  | fh id snap => exact w.fh_eq id snap

theorem item_aligned (hw : w.v.length % 4 = 0) (i : Item) : (w.item i).v.length % 4 = 0 := by
  have hi := i.encode_aligned
  rw [item_eq hw, append, List.length_append]
  omega

/-- A run of items keeps the vector aligned, so each one is padded as it would be by itself. -/
theorem items_eq (hw : w.v.length % 4 = 0) (is : List Item) :
    w.items is = w.append (is.flatMap Item.encode) ∧ (w.items is).v.length % 4 = 0 := by
  induction is generalizing w with
  | nil =>
    refine ⟨?_, hw⟩
    rw [items, List.foldl_nil, List.flatMap_nil, append, List.append_nil]
  | cons i is ih =>
    have hstep : w.items (i :: is) = (w.item i).items is := rfl
    obtain ⟨heq, hlen⟩ := ih (item_aligned hw i)
    refine ⟨?_, hstep ▸ hlen⟩
    rw [hstep, heq, item_eq hw, append_append, List.flatMap_cons]

end Writer

namespace Reader

/-- A value of a kind, none where the handle is refused. -/
def item (v : NfsVersion) (m : Msg) (r : Reader) : ItemKind → Option Item × Reader
  | .u32 =>
    let (x, r) := r.u32 m
    (some (.u32 x), r)
  | .u64 =>
    let (x, r) := r.u64 m
    (some (.u64 x), r)
  | .str =>
    let (s, r) := r.str m
    (some (.str s), r)
  | .fh =>
    let (h, r) := match v with
      | .v3 => r.fh3 m
      | .v4 => r.fh4 m
    (h.map (fun h => .fh h.1 h.2), r)

def items (v : NfsVersion) (m : Msg) (r : Reader) : List ItemKind → List (Option Item) × Reader
  | [] => ([], r)
  | k :: ks =>
    let (i, r) := r.item v m k
    let (is, r) := items v m r ks
    (i :: is, r)

variable {m : Msg} {r : Reader} {bs : Bytes}

theorem padded_length {s : Bytes} (hs : s.length ≤ 2 ^ 32 - 4) :
    (padded (UInt32.ofNat s.length)).toNat = (s ++ XdrType.padding s.length).length := by
  rw [padded_toNat, XdrType.toNat_ofNat (by omega), List.length_append, XdrType.padding, List.length_replicate]
  omega

theorem Ahead.str {s : Bytes} (hs : s.length ≤ 2 ^ 32 - 4) (h : r.Ahead m ((Item.str s).encode ++ bs)) (hok : r.ok = true) :
    ∃ r', r.str m = (s, r') ∧ r'.ok = true ∧ r'.pos.toNat = r.pos.toNat + (Item.str s).encode.length := by
  have henc : (Item.str s).encode.length = 4 + (s ++ XdrType.padding s.length).length := by
    have hword : (word (UInt32.ofNat s.length)).length = 4 := rfl
    rw [Item.encode, List.length_append, hword]
  rw [Item.encode, List.append_assoc] at h
  have hpos := h.u32_pos
  obtain ⟨hlen, h1, hok1⟩ := h.u32
  obtain ⟨hadd, hle⟩ := h1.left.toNat_add (padded_length hs)
  have hslice : m.slice (r.u32 m).2.pos.toNat s.length = s := by
    have hroom := h1.left.left.length
    obtain ⟨rest, hrest⟩ := h1.left.left.next
    rw [m.slice_eq hroom, ← hrest, List.take_left]
  have hdata : (UInt32.ofNat s.length).toNat = s.length := XdrType.toNat_ofNat (by omega)
  unfold Reader.str
  dsimp only
  rw [hok1, hok, hlen, hdata, hslice, if_neg (by simpa using hle)]
  refine ⟨_, rfl, hok1.trans hok, ?_⟩
  dsimp only
  rw [hadd, hpos, henc, Nat.add_assoc]

/-- The item ahead is read, and the reader has gone over its bytes. -/
theorem Ahead.item (v : NfsVersion) {i : Item} (hi : i.Short) (h : r.Ahead m (i.encode ++ bs)) (hok : r.ok = true) :
    ∃ r', r.item v m i.kind = (some i, r') ∧ r'.ok = true ∧ r'.pos.toNat = r.pos.toNat + i.encode.length := by
  cases i with
  | u32 x =>
    have hpos := h.u32_pos
    obtain ⟨hx, -, hok'⟩ := h.u32
    rcases hread : r.u32 m with ⟨y, r'⟩
    rw [hread] at hpos hx hok'
    obtain rfl : y = x := hx
    exact ⟨r', by rw [Item.kind, Reader.item, hread], hok'.trans hok, hpos⟩
  | u64 x =>
    have hlen : (Item.u64 x).encode.length = 8 := be_length x
    have hpos := h.u64_pos
    obtain ⟨hx, -, hok'⟩ := h.u64
    rcases hread : r.u64 m with ⟨y, r'⟩
    rw [hread] at hpos hx hok'
    obtain rfl : y = x := hx
    rw [hlen]
    exact ⟨r', by rw [Item.kind, Reader.item, hread], hok'.trans hok, hpos⟩
  | str s =>
    obtain ⟨r', hs, hok', hpos⟩ := h.str hi hok
    exact ⟨r', by rw [Item.kind, Reader.item, hs], hok', hpos⟩
  | fh id snap =>
    have hlen : (Item.fh id snap).encode.length = 20 := by
      have hword : (word 16).length = 4 := rfl
      rw [Item.encode, handle, List.length_append, List.length_append, be_length, be_length, hword]
    rw [hlen]
    cases v with
    | v3 =>
      obtain ⟨r', hfh, -, hok', hpos⟩ := h.fh3 hok
      exact ⟨r', by rw [Item.kind, Reader.item]; dsimp only; rw [hfh, Option.map_some], hok', hpos⟩
    | v4 =>
      obtain ⟨r', hfh, -, hok', hpos⟩ := h.fh4 hok
      exact ⟨r', by rw [Item.kind, Reader.item]; dsimp only; rw [hfh, Option.map_some], hok', hpos⟩

theorem Ahead.items (v : NfsVersion) {is : List Item} (hs : ∀ i ∈ is, i.Short) (h : r.Ahead m (is.flatMap Item.encode))
    (hok : r.ok = true) :
    ∃ r', r.items v m (is.map Item.kind) = (is.map some, r') ∧ r'.ok = true ∧
      r'.pos.toNat = r.pos.toNat + (is.flatMap Item.encode).length := by
  induction is generalizing r with
  | nil => exact ⟨r, rfl, hok, rfl⟩
  | cons i is ih =>
    rw [List.flatMap_cons] at h ⊢
    obtain ⟨r1, hitem, hok1, hpos1⟩ := h.item v (hs i List.mem_cons_self) hok
    have h1 : r1.Ahead m (is.flatMap Item.encode) := h.advance _ hpos1
    obtain ⟨r2, hitems, hok2, hpos2⟩ := ih (fun j hj => hs j (List.mem_cons_of_mem _ hj)) h1 hok1
    refine ⟨r2, ?_, hok2, ?_⟩
    · rw [List.map_cons, List.map_cons, Reader.items, hitem]
      dsimp only
      rw [hitems]
    · rw [hpos2, hpos1, List.length_append, Nat.add_assoc]

end Reader

/-- Items written one after another from a multiple of four on keep to multiples of four,
and in either version a reader that starts where they start reads them back and ends where they end. -/
theorem items_read_back (v : NfsVersion) {w : Writer} (hw : w.v.length % 4 = 0) {is : List Item} (hs : ∀ i ∈ is, i.Short) :
    (∀ js, js <+: is → (w.items js).v.length % 4 = 0) ∧
    ∀ (m : Msg) (r : Reader), (w.items is).v <+: m.buf → r.pos.toNat = w.v.length → r.ok = true →
      (r.items v m (is.map Item.kind)).1 = is.map some ∧
      (r.items v m (is.map Item.kind)).2.ok = true ∧
      (r.items v m (is.map Item.kind)).2.pos.toNat = (w.items is).v.length := by
  refine ⟨fun js _ => (Writer.items_eq hw js).2, fun m r hbuf hpos hok => ?_⟩
  obtain ⟨heq, -⟩ := Writer.items_eq hw is
  have hv : (w.items is).v = w.v ++ is.flatMap Item.encode := congrArg Writer.v heq
  have hahead : r.Ahead m (is.flatMap Item.encode) := by
    obtain ⟨rest, hrest⟩ := hbuf
    rw [hv, List.append_assoc] at hrest
    refine ⟨?_, ?_⟩
    · rw [hpos, ← hrest, List.length_append]
      omega
    · rw [hpos, ← hrest, List.drop_left]
      exact List.prefix_append _ _
  obtain ⟨r', hread, hok', hpos'⟩ := hahead.items v hs hok
  rw [hread, hv, List.length_append, ← hpos]
  exact ⟨rfl, hok', hpos'⟩

/-- Strings of three bytes and of none, with words and a handle between them and after. -/
def mixedItems : List Item := [.str [97, 98, 99], .u64 5, .fh 7 3, .str [], .u32 9]

/-- The items behind four bytes and in front of one. -/
def mixedMsg : Msg := ⟨((⟨[1, 2, 3, 4]⟩ : Writer).items mixedItems).v ++ [255], fun _ => 0, by decide⟩

theorem items_read_back_mixed :
    (Reader.items .v4 mixedMsg { pos := 4 } (mixedItems.map Item.kind)).1 = mixedItems.map some ∧
    (Reader.items .v4 mixedMsg { pos := 4 } (mixedItems.map Item.kind)).2.pos.toNat = 48 := by
  have hshort : ∀ i ∈ mixedItems, i.Short := by decide
  have hstart : (⟨[1, 2, 3, 4]⟩ : Writer).v.length % 4 = 0 := rfl
  have hread := (items_read_back .v4 hstart hshort).2 mixedMsg { pos := 4 } (List.prefix_append _ _) rfl rfl
  exact ⟨hread.1, hread.2.2⟩

end Prfs
