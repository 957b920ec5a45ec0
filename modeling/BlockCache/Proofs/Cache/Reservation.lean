import BlockCache.Proofs.Cache.Recency
import BlockCache.Proofs.Space.Reservation

/-!
# Reservation — a cache never needs more free blocks than were reserved

A cache changes its free list when it drops an item, takes space for a new one, evicts one or is
emptied. In the middle of a put space may be held that belongs to no item yet; the blocks are tidy
even then, and what is given back is always the space of an item (`Sound.fitsReservation`).
-/

namespace BlockCache
namespace Cache

variable {c s : Cache} {lists : Nat → List Nat} {loose : List Nat} {held : List Extent}

/-- The table of free blocks fits the reservation, and so do all tables that it goes through while
the space of an item is given back. -/
structure FitsReservation (c : Cache) : Prop where
  blocks : c.catalog.free.blocks.length ≤ FreeList.maxBlocks c.layout.storeLength
  moments : ∀ id, c.Resident id →
    ∀ blocks ∈ c.catalog.free.moments (c.catalog.directory.item id).extent,
      blocks.length ≤ FreeList.maxBlocks c.layout.storeLength

theorem Sound.fitsReservation (h : c.Sound lists loose held) : c.FitsReservation where
  blocks := by
    rw [← h.free_eq]
    exact h.laid.tidy.length_blocks_le
  moments := by
    intro id hid blocks hblocks
    rw [h.resident_iff] at hid
    rw [← h.free_eq]
    exact h.laid.tidy.length_moments_le (h.laid.returnable hid) hblocks

/-- Evictions leave the reservation enough, whatever is held in the meantime. -/
theorem EvictsWhile.fitsReservation {p : Cache → Prop} {es : List Eviction}
    (h : EvictsWhile p c es s) (hc : c.Sound lists loose held) :
    s.layout = c.layout ∧ s.FitsReservation := by
  obtain ⟨lists', hsound, hkeeps, _⟩ := h.spec hc
  exact ⟨hkeeps.layout_eq, hsound.fitsReservation⟩

/-- No history within the contract of a free list leads to more blocks than were reserved when it
was created, not even while space is given back. A cache stays within that contract: its blocks
outgrow the reservation neither between requests nor in the states that a put passes through, in
which items are evicted. -/
theorem free_blocks_fit_reservation :
    (∀ storeLength f F, FreeList.Reached storeLength f F →
      IsLeast {n | storeLength / granule ≤ 2 * n} (FreeList.maxBlocks storeLength) ∧
      f.blocks.length ≤ FreeList.maxBlocks storeLength ∧
      ∀ e : Extent, e.Whole storeLength → (∀ x ∈ e, x ∉ F) →
        (f.moments e).getLast? = some (f.release e).blocks ∧
        ∀ blocks ∈ f.moments e, blocks.length ≤ FreeList.maxBlocks storeLength) ∧
    ∀ c : Cache, c.Reachable → c.FitsReservation ∧
      ∀ (key : UInt32) (data : ByteArray), 0 < data.size → data.size ≤ c.layout.storeLength →
        ∃ length, ∃ p : c.Course key data length, c.put key data = c.insert key data length ∧
          (∀ es s, EvictsWhile (fun _ => True) p.dropped es s →
            s.layout = c.layout ∧ s.FitsReservation) ∧
          ∀ es s, EvictsWhile (fun _ => True) p.written es s →
            s.layout = c.layout ∧ s.FitsReservation := by
  refine ⟨fun storeLength f F h => ?_, fun c h => ?_⟩
  · have hrep := h.represents
    have hlength := hrep.length_eq
    refine ⟨FreeList.maxBlocks_isLeast storeLength, hlength ▸ hrep.tidy.length_blocks_le,
      fun e hwhole hbusy => ⟨f.getLast?_moments e, fun blocks hblocks => ?_⟩⟩
    have hreturn : f.Returnable e := ⟨hlength ▸ hwhole, hrep.bytes_eq ▸ hbusy⟩
    exact hlength ▸ hrep.tidy.length_moments_le hreturn hblocks
  · obtain ⟨lists, hsound⟩ := h.sound
    refine ⟨hsound.fitsReservation, fun key data hpos hle => ?_⟩
    obtain ⟨length, hround, hput, ⟨p⟩⟩ := hsound.exists_put_course key hpos hle
    obtain ⟨lists₀, hsound₀, hkeeps₀, _⟩ := p.dropped_spec hsound
    obtain ⟨lists₁, hsound₁, hkeeps₁, _⟩ := p.evicts_for_space.spec hsound₀
    obtain ⟨hsound₂, _⟩ := p.written_spec hsound₁ hpos hround
    refine ⟨length, p, hput, fun es s hes => ?_, fun es s hes => ?_⟩
    · obtain ⟨hlayout, hfits⟩ := hes.fitsReservation hsound₀
      exact ⟨hlayout.trans hkeeps₀.layout_eq, hfits⟩
    · obtain ⟨hlayout, hfits⟩ := hes.fitsReservation hsound₂
      have hwritten : p.written.layout = p.dropped.layout := hkeeps₁.layout_eq
      exact ⟨hlayout.trans (hwritten.trans hkeeps₀.layout_eq), hfits⟩

/-- The granule between two blocks comes back and joins them, and two items are in a cache. -/
theorem free_blocks_fit_reservation_joined :
    (FreeList.moments ⟨[⟨0, 32⟩, ⟨48, 16⟩], 64⟩ ⟨32, 16⟩).getLast? = some [⟨0, 64⟩] ∧
    (∀ blocks ∈ FreeList.moments ⟨[⟨0, 32⟩, ⟨48, 16⟩], 64⟩ ⟨32, 16⟩, blocks.length ≤ 2) ∧
    ∃ turns c, smallest.run [.put 1 ⟨#[1]⟩, .put 2 ⟨#[1]⟩] = .ok (turns, c) ∧
      c.FitsReservation := by
  obtain ⟨hlists, hcaches⟩ := free_blocks_fit_reservation
  obtain ⟨turns, c, hrun⟩ : ∃ turns c,
      smallest.run [.put 1 ⟨#[1]⟩, .put 2 ⟨#[1]⟩] = .ok (turns, c) := ⟨_, _, rfl⟩
  obtain ⟨_, _, hmoments⟩ := hlists 64 _ _ FreeList.reached_fragmented
  have hwhole : Extent.Whole 64 ⟨32, 16⟩ := ⟨by decide, by decide, by decide, by decide⟩
  obtain ⟨hlast, hfits⟩ := hmoments ⟨32, 16⟩ hwhole (by
    -- The bytes of the extent were taken, and only others were given back.
    rintro x hx (hfree | hfree)
    · exact hfree.2 hx
    · exact absurd hx.2 (Nat.not_lt.2 hfree.1))
  exact ⟨hlast, hfits, turns, c, hrun, (hcaches c ⟨smallest, _, turns, fresh_smallest, hrun⟩).1⟩

end Cache
end BlockCache
