import BlockCache.Proofs.Cache.Bounds
import BlockCache.Proofs.Cache.Recency

/-!
# Occupancy — the report of a reachable cache

* `Occupancy.Coherent o` — the figures of `o` bound each other as those of one store do.

The figures come from the chains of the bins, from the free blocks and from the layout. In every
reachable state the chains hold the items, each with its share of the store, and the free blocks lie
between the items, so the report is coherent (`Reachable.occupancy_coherent`).
-/

namespace BlockCache

open Extent

/-! ## Free blocks -/

/-- The stops of the free blocks are the offsets of different items, apart from the end of the
store. -/
theorem Catalog.Laid.length_blocks_le {k : Catalog} {lists : Nat → List Nat} {loose : List Nat}
    (h : k.Laid lists loose []) :
    k.free.blocks.length ≤ (rows lists k.directory.binCount).length + 1 := by
  have hnodup : (k.free.blocks.map stop).Nodup := by
    rw [List.Nodup, List.pairwise_map]
    refine h.tidy.apart.imp fun {a b} hbelow => Nat.ne_of_lt ?_
    exact Nat.lt_of_lt_of_le hbelow b.offset_le_stop
  have hsub : k.free.blocks.map stop ⊆ k.free.storeLength ::
      (rows lists k.directory.binCount).map fun id => (k.directory.item id).extent.offset := by
    intro x hx
    obtain ⟨b, hb, rfl⟩ := List.mem_map.1 hx
    rcases h.block_stop hb with hend | ⟨id, hid, hoffset⟩
    · exact hend ▸ List.mem_cons_self ..
    · exact List.mem_cons_of_mem _ (List.mem_map.2 ⟨id, hid, hoffset⟩)
  have hlength := (List.Nodup.subperm hnodup hsub).length_le
  rwa [List.length_map, List.length_cons, List.length_map] at hlength

namespace FreeList

variable {f : FreeList}

theorem largestBlock_le (f : FreeList) : f.largestBlock ≤ f.freeBytes :=
  foldl_max_le_sumOf _

theorem freeBytes_le_mul (f : FreeList) : f.freeBytes ≤ f.blocks.length * f.largestBlock := by
  have hcount : (f.blocks.map (·.length)).countP (0 < ·) ≤ f.blocks.length := by
    rw [← List.length_map (·.length)]
    exact List.countP_le_length
  calc
    f.freeBytes ≤ f.largestBlock * (f.blocks.map (·.length)).countP (0 < ·) :=
      sumOf_le_mul_countP fun _ hn => le_foldl_max hn
    _ ≤ f.blocks.length * f.largestBlock := by
      rw [Nat.mul_comm]
      exact Nat.mul_le_mul_right _ hcount

/-- A tidy list without free bytes has no block. -/
theorem Tidy.length_blocks_eq_zero_iff (hf : f.Tidy) : f.blocks.length = 0 ↔ f.freeBytes = 0 := by
  constructor
  · intro hnone
    rw [freeBytes, List.length_eq_zero_iff.1 hnone]
    rfl
  · intro hfree
    have hblocks := FreeList.length_blocks_le hf.whole
    rw [hfree] at hblocks
    exact (Nat.mul_eq_zero.1 (Nat.le_zero.1 hblocks)).resolve_right (by decide)

end FreeList

/-! ## Reports -/

/-- The figures bound each other as those of one store do. -/
structure Occupancy.Coherent (o : Occupancy) : Prop where
  usedEntries_le : o.usedEntries ≤ o.entryCount
  granules_le : granule * o.usedEntries ≤ o.storeUsed
  storeUsed_le : o.storeUsed ≤ o.storeLength
  occupiedBins_le : o.occupiedBins ≤ min o.binCount o.usedEntries
  longestChain_le : o.longestChain ≤ o.usedEntries - o.occupiedBins + 1
  usedEntries_le_mul : o.usedEntries ≤ o.longestChain * o.occupiedBins
  /-- A free block comes before an item or the end of the store. -/
  freeBlocks_le : o.freeBlocks ≤ o.usedEntries + 1
  largestFreeBlock_le : o.largestFreeBlock ≤ o.storeLength - o.storeUsed
  free_le_mul : o.storeLength - o.storeUsed ≤ o.freeBlocks * o.largestFreeBlock
  freeBlocks_eq_zero_iff : o.freeBlocks = 0 ↔ o.storeUsed = o.storeLength

namespace Cache

variable {c : Cache} {lists : Nat → List Nat} {o : Occupancy}

/-- The report takes its figures from the items and from the free list. -/
theorem Sound.occupancy_spec (h : c.Sound lists [] []) :
    ∃ o, c.occupancy = .ok o ∧ o.usedEntries = c.len ∧ o.entryCount = c.layout.entryCount ∧
      o.binCount = c.layout.binCount ∧ o.storeLength = c.layout.storeLength ∧
      o.storeUsed = sumOf ((rows lists c.catalog.directory.binCount).map fun id =>
        (c.catalog.directory.item id).length) ∧
      o.storeUsed + c.catalog.free.freeBytes = o.storeLength ∧
      o.freeBlocks = c.catalog.free.blocks.length ∧
      o.largestFreeBlock = c.catalog.free.largestBlock := by
  refine ⟨_, h.occupancy_eq, h.sumOf_chainLengths, rfl, ?_, rfl, ?_,
    Nat.sub_add_cancel h.freeBytes_le, rfl, rfl⟩
  · rw [Occupancy.binCount, List.length_map, List.length_range]
  · exact Nat.sub_eq_of_eq_add h.sumOf_lengths.symm

/-- Each item takes a granule of the store or more. -/
theorem Sound.granules_le (h : c.Sound lists [] []) :
    granule * c.len ≤ sumOf ((rows lists c.catalog.directory.binCount).map fun id =>
      (c.catalog.directory.item id).length) := by
  have hall : ∀ length ∈ (rows lists c.catalog.directory.binCount).map
      (fun id => (c.catalog.directory.item id).length), granule ≤ length :=
    List.forall_mem_map.2 fun id hid => (h.laid.stored id hid).whole.granule_le
  have hsum := length_mul_le_sumOf hall
  rwa [List.length_map, ← h.len_eq, Nat.mul_comm] at hsum

theorem Sound.coherent (h : c.Sound lists [] []) (hreport : c.occupancy = .ok o) :
    o.Coherent := by
  obtain ⟨o', ho, hlen, hentries, _, _, hused, hbalance, hblocks, hlargest⟩ := h.occupancy_spec
  obtain rfl : o = o' := Except.ok.inj (hreport.symm.trans ho)
  have hfree : o.storeLength - o.storeUsed = c.catalog.free.freeBytes := by omega
  refine {
    usedEntries_le := ?entries
    granules_le := ?granules
    storeUsed_le := hbalance ▸ Nat.le_add_right _ _
    occupiedBins_le := o.occupiedBins_le
    longestChain_le := ?longest
    usedEntries_le_mul := o.usedEntries_le_mul
    freeBlocks_le := ?blocks
    largestFreeBlock_le := ?largest
    free_le_mul := ?free
    freeBlocks_eq_zero_iff := ?full }
  case entries =>
    rw [hlen, h.len_eq, hentries, ← h.entries_eq]
    exact h.laid.spells.length_rows_le (Nat.le_succ _)
  case granules =>
    rw [hlen, hused]
    exact h.granules_le
  case longest =>
    have hboth := o.longest_add_occupied_le
    have hoccupied := Nat.le_trans o.occupiedBins_le (Nat.min_le_right _ _)
    omega
  case blocks =>
    rw [hblocks, hlen, h.len_eq]
    exact h.laid.length_blocks_le
  case largest =>
    rw [hlargest, hfree]
    exact c.catalog.free.largestBlock_le
  case free =>
    rw [hfree, hblocks, hlargest]
    exact c.catalog.free.freeBytes_le_mul
  case full =>
    rw [hblocks, h.laid.tidy.length_blocks_eq_zero_iff]
    omega

/-- The report of a reachable cache is coherent. It says of the items how many there are and how
much of the store their rounded lengths take. -/
theorem Reachable.occupancy_coherent (h : c.Reachable) :
    ∃ o, c.occupancy = .ok o ∧ o.usedEntries = c.len ∧ o.entryCount = c.layout.entryCount ∧
      o.binCount = c.layout.binCount ∧ o.storeLength = c.layout.storeLength ∧
      (∃ ids : List Nat, ids.Nodup ∧ (∀ id, id ∈ ids ↔ c.Resident id) ∧
        o.storeUsed = sumOf (ids.map fun id => (c.catalog.directory.item id).length) ∧
        ∀ id ∈ ids, roundToGranule (c.catalog.directory.item id).dataLength =
          some (c.catalog.directory.item id).length) ∧
      o.Coherent := by
  obtain ⟨lists, hsound⟩ := h.sound
  have hlaid := hsound.laid
  obtain ⟨o, ho, hlen, hentries, hbins, hstore, hused, _⟩ := hsound.occupancy_spec
  have hnodup := hlaid.spells.rows_nodup (Nat.le_succ c.catalog.directory.binCount)
  exact ⟨o, ho, hlen, hentries, hbins, hstore,
    ⟨rows lists c.catalog.directory.binCount, hnodup, fun _ => hsound.resident_iff.symm, hused,
      fun id hid => (hlaid.stored id hid).rounded⟩,
    hsound.coherent ho⟩

/-- The second put of the key 1 leaves a hole behind the item of the key 2. -/
theorem Reachable.occupancy_coherent_hole :
    ∃ turns c o, smallest.run [.put 1 ⟨#[1]⟩, .put 2 ⟨#[1]⟩, .put 1 ⟨#[2]⟩] = .ok (turns, c) ∧
      c.occupancy = .ok o ∧ o = ⟨[2], 2, 336, 32, 2, 288⟩ ∧ o.Coherent := by
  obtain ⟨turns, c, hrun, hreport⟩ : ∃ turns c,
      smallest.run [.put 1 ⟨#[1]⟩, .put 2 ⟨#[1]⟩, .put 1 ⟨#[2]⟩] = .ok (turns, c) ∧
        c.occupancy = .ok ⟨[2], 2, 336, 32, 2, 288⟩ :=
    ⟨_, _, rfl, rfl⟩
  obtain ⟨o, ho, _, _, _, _, _, hcoherent⟩ :=
    Reachable.occupancy_coherent ⟨smallest, _, turns, fresh_smallest, hrun⟩
  exact ⟨turns, c, o, hrun, ho, Except.ok.inj (ho.symm.trans hreport), hcoherent⟩

end Cache
end BlockCache
