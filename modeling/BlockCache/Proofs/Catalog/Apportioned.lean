import BlockCache.Catalog
import BlockCache.Proofs.Directory.Rows
import BlockCache.Proofs.Space.FreeList

/-!
# Apportioned — every entry and every byte belongs somewhere

`k.Apportioned lists loose held` says that the chains of a catalog are the lists `lists`, that each
entry is on one of them or loose, and that each byte of the store belongs to an item, is held or is
free. It says nothing about what the items are: neither keys nor times matter, nor how many of its
bytes an item uses. This is all that an eviction needs (`Apportioned.evict_spec`), and once no item
is left, the store is one free block (`Apportioned.blocks_of_no_items`).
-/

namespace BlockCache

open Extent

/-- What an eviction of the entry `id` from the bin `b` says about it. -/
def Directory.evictionOf (d : Directory) (b id : Nat) : Eviction :=
  ⟨id, b, (d.item id).key, (d.item id).offset, (d.item id).length, (d.item id).time⟩

namespace Catalog

/-- The number of items whose extent covers the byte `x`. -/
def itemCoverage (d : Directory) (lists : Nat → List Nat) (x : Nat) : Nat :=
  (rows lists d.binCount).countP fun id => x ∈ (d.item id).extent

theorem itemCoverage_pos {d : Directory} {lists : Nat → List Nat} {id : Nat}
    (hid : id ∈ rows lists d.binCount) {x : Nat} (hx : x ∈ (d.item id).extent) :
    0 < itemCoverage d lists x :=
  List.countP_pos_iff.2 ⟨id, hid, decide_eq_true hx⟩

/-- Every table has room for something, and no size is too large for a machine word. -/
structure Sized (k : Catalog) : Prop where
  bins_pos : 0 < k.directory.binCount
  entries_pos : 0 < k.directory.capacity
  entries_lt : k.directory.capacity < Word.limit
  store_pos : 0 < k.free.storeLength
  store_lt : k.free.storeLength < Word.limit
  store_dvd : granule ∣ k.free.storeLength

theorem Sized.congr {k k' : Catalog} (h : k.Sized)
    (hbins : k'.directory.binCount = k.directory.binCount)
    (hcapacity : k'.directory.capacity = k.directory.capacity)
    (hlength : k'.free.storeLength = k.free.storeLength) : k'.Sized where
  bins_pos := hbins ▸ h.bins_pos
  entries_pos := hcapacity ▸ h.entries_pos
  entries_lt := hcapacity ▸ h.entries_lt
  store_pos := hlength ▸ h.store_pos
  store_lt := hlength ▸ h.store_lt
  store_dvd := hlength ▸ h.store_dvd

structure Apportioned (k : Catalog) (lists : Nat → List Nat) (loose : List Nat)
    (held : List Extent) : Prop extends Sized k where
  /-- The chains end, and no two of them share an entry. -/
  spells : k.directory.Spells lists
  /-- Every entry is on a chain or loose, exactly once. -/
  once : ∀ id, (rows lists (k.directory.binCount + 1)).count id + loose.count id =
    if id < k.directory.capacity then 1 else 0
  whole : ∀ id ∈ rows lists k.directory.binCount,
    (k.directory.item id).extent.Whole k.free.storeLength
  tidy : k.free.Tidy
  /-- Every byte of the store belongs to an item, is held or is free, exactly once. -/
  tiled : ∀ x, itemCoverage k.directory lists x + coverage held x + coverage k.free.blocks x =
    if x < k.free.storeLength then 1 else 0

namespace Apportioned

variable {k : Catalog} {lists : Nat → List Nat} {loose : List Nat} {held : List Extent}
  {b id : Nat}

/-- The bytes of an item can be given back. -/
theorem returnable (h : k.Apportioned lists loose held)
    (hid : id ∈ rows lists k.directory.binCount) :
    k.free.Returnable (k.directory.item id).extent := by
  refine ⟨h.whole id hid, fun x hx hfree => ?_⟩
  have hitem := itemCoverage_pos hid hx
  have htiled := h.tiled x
  rw [FreeList.mem_bytes] at hfree
  split_ifs at htiled <;> omega

/-- Items may be lost or used, as long as entries and bytes are still accounted for. -/
theorem restrict {d : Directory} {f : FreeList} {lists' : Nat → List Nat} {loose' : List Nat}
    {held' : List Extent} (h : k.Apportioned lists loose held)
    (hbins : d.binCount = k.directory.binCount)
    (hcapacity : d.capacity = k.directory.capacity)
    (hlength : f.storeLength = k.free.storeLength)
    (hspells : d.Spells lists') (htidy : f.Tidy)
    (hsub : ∀ b < k.directory.binCount, ∀ id ∈ lists' b, id ∈ lists b)
    (hextent : ∀ id, (d.item id).extent = (k.directory.item id).extent)
    (honce : ∀ id, (rows lists' (k.directory.binCount + 1)).count id + loose'.count id =
      (rows lists (k.directory.binCount + 1)).count id + loose.count id)
    (htiled : ∀ x, itemCoverage k.directory lists' x + coverage held' x + coverage f.blocks x =
      itemCoverage k.directory lists x + coverage held x + coverage k.free.blocks x) :
    Apportioned ⟨d, f⟩ lists' loose' held' := by
  refine {
    toSized := h.toSized.congr hbins hcapacity hlength
    spells := hspells
    once := ?once
    whole := ?whole
    tidy := htidy
    tiled := ?tiled } <;> dsimp only
  case once =>
    intro id
    rw [hbins, hcapacity, honce]
    exact h.once id
  case whole =>
    rw [hbins, hlength]
    intro id hid
    obtain ⟨b, hb, hmem⟩ := mem_rows.1 hid
    rw [hextent]
    exact h.whole id (mem_rows.2 ⟨b, hb, hsub b hb id hmem⟩)
  case tiled =>
    intro x
    have hcover : itemCoverage d lists' x = itemCoverage k.directory lists' x := by
      simp only [itemCoverage, hbins, hextent]
    rw [hcover, hlength, htiled]
    exact h.tiled x

/-! ## Dropping and evicting -/

theorem drop_spec (h : k.Apportioned lists loose held) (hb : b < k.directory.binCount)
    {front back : List Nat} (hlist : lists b = front ++ id :: back) :
    ∃ k', k.drop ⟨b, front.getLast?, id⟩ = .ok k' ∧
      k'.Apportioned (moveToSpare lists k.directory.binCount b id) loose held ∧
      k.directory.SameItems k'.directory ∧ k'.free.storeLength = k.free.storeLength := by
  have hmem : id ∈ lists b := by simp [hlist]
  have hrow : id ∈ rows lists k.directory.binCount := mem_rows.2 ⟨b, hb, hmem⟩
  obtain ⟨e, hentry, _, hitem⟩ :=
    Directory.entry_of_lt (h.spells.lt_capacity (Nat.le_of_lt hb) hmem)
  have hextent : e.extent = (k.directory.item id).extent := by rw [← hitem]; rfl
  have hreturn := h.returnable hrow
  have hgive : k.free.giveBack e.extent = .ok (k.free.release e.extent) := by
    rw [hextent]
    exact FreeList.giveBack_eq (Nat.lt_of_le_of_lt hreturn.whole.stop_le h.store_lt)
  obtain ⟨d₁, d', hunlink, hretire, hspells, hsame⟩ := h.spells.unlink_retire hb hlist
  refine ⟨⟨d', k.free.release e.extent⟩, ?_, ?_, hsame, rfl⟩
  · simp only [drop, hentry, hunlink, hretire, hgive, ok_bind]
    rfl
  have htidy := h.tidy.release (hextent ▸ hreturn)
  refine h.restrict hsame.binCount_eq hsame.capacity_eq rfl hspells htidy ?hsub ?hextent ?honce
    ?htiled
  case hsub =>
    intro b' hb' x hx
    rw [h.spells.moveToSpare_of_lt hb hmem hb'] at hx
    exact List.mem_of_mem_filter hx
  case hextent => exact fun x => by rw [hsame.item_eq]
  case honce =>
    -- The spare chain gets the entry that the bin loses.
    intro x
    rw [List.count, countP_rows_succ_moveToSpare lists _ hb hmem]
  case htiled =>
    -- The bytes of the item go over to the free blocks.
    intro x
    have hcount := countP_rows_moveToSpare lists
      (fun id => decide (x ∈ (k.directory.item id).extent)) hb hmem
    have hmoved := FreeList.coverage_release k.free e.extent x
    simp only [List.countP_cons, List.countP_nil, decide_eq_true_eq, Nat.zero_add] at hcount
    rw [coverage_cons, hextent] at hmoved
    rw [itemCoverage, itemCoverage, hextent, hmoved]
    omega

theorem evict_spec (h : k.Apportioned lists loose held) :
    (k.evict = .ok (none, k) ∧ rows lists k.directory.binCount = []) ∨
      ∃ b id tail k', b < k.directory.binCount ∧ lists b = id :: tail ∧
        k.evict = .ok (some (k.directory.evictionOf b id), k') ∧
        k'.Apportioned (moveToSpare lists k.directory.binCount b id) loose held ∧
        k.directory.SameItems k'.directory ∧ k'.free.storeLength = k.free.storeLength ∧
        k.directory.Foremost lists ⟨b, id, (k.directory.item id).time⟩ := by
  rcases h.spells.victim_spec with ⟨hvictim, hempty⟩ | ⟨v, hvictim, hforemost⟩
  · refine Or.inl ⟨?_, hempty⟩
    simp only [evict, hvictim, ok_bind]
    rfl
  · have hbin := hforemost.bin_lt
    obtain ⟨tail, hlist⟩ := hforemost.head
    have hid : v.id < k.directory.capacity :=
      h.spells.lt_capacity (Nat.le_of_lt hbin) (by simp [hlist])
    obtain ⟨e, hentry, _, hitem⟩ := Directory.entry_of_lt hid
    obtain ⟨k', hdrop, hleft, hsame, hlength⟩ := h.drop_spec hbin
      (show lists v.bin = [] ++ v.id :: tail from hlist)
    refine Or.inr ⟨v.bin, v.id, tail, k', hbin, hlist, ?_, hleft, hsame, hlength,
      hforemost.time_eq ▸ hforemost⟩
    rw [List.getLast?_nil] at hdrop
    simp only [evict, hvictim, hentry, hdrop, ok_bind, Directory.evictionOf, ← hitem]
    rfl

/-! ## No items -/

/-- With no item and nothing held, the whole store is one free block. -/
theorem blocks_of_no_items (h : k.Apportioned lists loose [])
    (hempty : rows lists k.directory.binCount = []) :
    k.free.blocks = [⟨0, k.free.storeLength⟩] := by
  -- Every byte that belongs to nobody else is free, and a tidy list is told by its bytes.
  have hbytes : k.free.bytes = k.free.reset.bytes := by
    ext x
    have htiled := h.tiled x
    rw [FreeList.mem_bytes, FreeList.mem_bytes, FreeList.coverage_reset, ← htiled, itemCoverage,
      hempty]
    simp
  have hreset := FreeList.tidy_reset h.store_pos h.store_dvd
  exact (hbytes ▸ h.tidy.runsOf).unique hreset.runsOf

/-- There is room for everything that the store can hold. -/
theorem exists_allocate (h : k.Apportioned lists loose [])
    (hempty : rows lists k.directory.binCount = []) {length : Nat}
    (hle : length ≤ k.free.storeLength) : ∃ answer, k.free.allocate length = some answer := by
  -- The one block that there is would be too short.
  rw [← Option.ne_none_iff_exists']
  intro hnone
  rw [FreeList.allocate_eq_none_iff, h.blocks_of_no_items hempty] at hnone
  have hshort : k.free.storeLength < length := hnone _ (List.mem_singleton_self _)
  omega

end Apportioned
end Catalog
end BlockCache
