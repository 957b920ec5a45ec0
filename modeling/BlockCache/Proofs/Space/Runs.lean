import BlockCache.Proofs.Space.FreeList
import Mathlib.Order.Interval.Set.Defs

/-!
# Runs — a free list as a set of bytes

A free list stands for the set of its free bytes: taking space removes a range of bytes from the
set and giving space back adds one. `FreeList.Reached` runs both sides next to each other, over
every history that keeps the contract of the free list; the blocks are then always the maximal runs
of the set, and every answer can be read off the set alone.
-/

namespace BlockCache

open Extent Set

namespace FreeList

/-! ## Bytes that an operation moves -/

theorem bytes_reset (f : FreeList) : f.reset.bytes = Iio f.storeLength := by
  ext x
  rw [mem_bytes, coverage_reset]
  split_ifs with hlt <;> simpa using hlt

theorem bytes_allocate {f f' : FreeList} {length offset : Nat} (hf : f.Tidy)
    (h : f.allocate length = some (offset, f')) :
    f'.bytes = f.bytes \ Ico offset (offset + length) := by
  ext x
  -- A byte that is taken was free once, so it is not free any more.
  have hmoved := coverage_allocate h x
  have hone := coverage_le_one hf.apart x
  rw [mem_sdiff, mem_bytes, mem_bytes, mem_Ico]
  split_ifs at hmoved with hx
  · simp only [mem_iff, stop] at hx
    omega
  · simp only [mem_iff, stop] at hx
    omega

theorem range_subset_bytes {f f' : FreeList} {length offset : Nat}
    (h : f.allocate length = some (offset, f')) : Ico offset (offset + length) ⊆ f.bytes := by
  intro x hx
  have hmoved := coverage_allocate h x
  rw [if_pos (show x ∈ (⟨offset, length⟩ : Extent) from hx)] at hmoved
  rw [mem_bytes]
  omega

theorem bytes_release (f : FreeList) (e : Extent) :
    (f.release e).bytes = f.bytes ∪ Ico e.offset e.stop := by
  ext x
  rw [mem_bytes, coverage_release, coverage_cons, mem_union, mem_bytes, mem_Ico, ← mem_iff]
  split_ifs with hx
  · simp only [hx, or_true, iff_true]
    omega
  · simp [hx]

/-! ## What the set says about an answer -/

/-- The lowest of the maximal runs of `F` that have `length` bytes. -/
structure LowestRun (F : Set Nat) (length : Nat) (e : Extent) : Prop where
  run : MaximalRun F e
  enough : length ≤ e.length
  lowest : ∀ e', MaximalRun F e' → length ≤ e'.length → e.offset ≤ e'.offset

theorem Tidy.lowestRun {f f' : FreeList} {length offset : Nat} (hf : f.Tidy)
    (h : f.allocate length = some (offset, f')) :
    ∃ e, LowestRun f.bytes length e ∧ offset = e.stop - length := by
  obtain ⟨before, b, after, hblocks, hsmall, hle, hstop, _⟩ := allocate_eq_some h
  have hmem : ∀ e, e ∈ before ++ b :: after ↔ MaximalRun f.bytes e := fun e => by
    rw [← hblocks, hf.runsOf.mem_iff]
  have hascending := hf.runsOf.ascending
  rw [hblocks] at hascending
  refine ⟨b, ⟨(hmem b).1 (by simp), hle, fun e' hrun hlong => ?_⟩, by omega⟩
  -- A run in front of `b` is too short, and one behind it begins later.
  rcases List.mem_append.1 ((hmem e').2 hrun) with hfront | hback
  · have hshort := hsmall e' hfront
    omega
  · rcases List.mem_cons.1 hback with rfl | hback
    · exact Nat.le_refl _
    · have hpair := (List.pairwise_append.1 hascending).2.1
      exact Nat.le_of_lt ((List.pairwise_cons.1 hpair).1 e' hback)

/-- A row of free bytes lies in one block. -/
theorem Tidy.exists_allocate {f : FreeList} {length x : Nat} (hf : f.Tidy) (hpos : 0 < length)
    (hrow : ∀ i < length, x + i ∈ f.bytes) : ∃ answer, f.allocate length = some answer := by
  rw [← Option.ne_none_iff_exists']
  intro hnone
  rw [allocate_eq_none_iff] at hnone
  obtain ⟨b, hb, hx⟩ := coverage_pos_iff.1 (hrow 0 hpos)
  have hrun := (hf.runsOf.mem_iff b).1 hb
  have hshort := hnone b hb
  simp only [mem_iff, stop, Nat.add_zero] at hx
  -- The row would go on past the end of its block.
  have hpast := hrow (b.stop - x) (by simp only [stop]; omega)
  have hend : x + (b.stop - x) = b.stop := by
    simp only [stop]
    omega
  exact hrun.noneAfter (hend ▸ hpast)

/-! ## Histories within the contract -/

/-- The free lists of a store of `storeLength` bytes, each with the bytes that are free after the
history that leads to it. Any machine may have granted the room for the blocks. Only whole granules
are asked for, and only busy bytes of the store are given back. -/
inductive Reached (storeLength : Nat) : FreeList → Set Nat → Prop where
  | create {f : FreeList} (grants : Nat → Bool) :
      storeLength < Word.limit → FreeList.create storeLength grants = .ok f →
      Reached storeLength f (Iio storeLength)
  | reset {f : FreeList} {F : Set Nat} :
      Reached storeLength f F → Reached storeLength f.reset (Iio storeLength)
  | allocate {f f' : FreeList} {F : Set Nat} {length offset : Nat} :
      Reached storeLength f F → 0 < length → granule ∣ length →
      f.allocate length = some (offset, f') →
      Reached storeLength f' (F \ Ico offset (offset + length))
  | giveBack {f f' : FreeList} {F : Set Nat} {e : Extent} :
      Reached storeLength f F → e.Whole storeLength → (∀ x ∈ e, x ∉ F) →
      f.giveBack e = .ok f' → Reached storeLength f' (F ∪ Ico e.offset e.stop)

/-- What every history within the contract keeps. -/
structure Represents (storeLength : Nat) (f : FreeList) (F : Set Nat) : Prop where
  positive : 0 < storeLength
  granular : granule ∣ storeLength
  addressable : storeLength < Word.limit
  length_eq : f.storeLength = storeLength
  tidy : f.Tidy
  bytes_eq : f.bytes = F

namespace Represents

variable {storeLength length offset : Nat} {f f' : FreeList} {F : Set Nat} {e : Extent}

theorem reset (h : Represents storeLength f F) :
    Represents storeLength f.reset (Iio storeLength) := by
  rcases h with ⟨hpos, hdvd, hlimit, rfl, _, _⟩
  exact ⟨hpos, hdvd, hlimit, rfl, tidy_reset hpos hdvd, bytes_reset f⟩

theorem allocate (h : Represents storeLength f F) (hdvd : granule ∣ length)
    (htake : f.allocate length = some (offset, f')) :
    Represents storeLength f' (F \ Ico offset (offset + length)) :=
  { h with
    length_eq := (allocate_storeLength htake).trans h.length_eq
    tidy := h.tidy.allocate hdvd htake
    bytes_eq := h.bytes_eq ▸ bytes_allocate h.tidy htake }

theorem release (h : Represents storeLength f F) (hwhole : e.Whole storeLength)
    (hbusy : ∀ x ∈ e, x ∉ F) :
    Represents storeLength (f.release e) (F ∪ Ico e.offset e.stop) := by
  have hreturn : f.Returnable e := ⟨h.length_eq ▸ hwhole, h.bytes_eq ▸ hbusy⟩
  exact { h with
    tidy := h.tidy.release hreturn
    bytes_eq := h.bytes_eq ▸ bytes_release f e }

theorem giveBack_eq (h : Represents storeLength f F) (hwhole : e.Whole storeLength) :
    f.giveBack e = .ok (f.release e) :=
  FreeList.giveBack_eq (Nat.lt_of_le_of_lt hwhole.stop_le h.addressable)

theorem runsOf (h : Represents storeLength f F) : RunsOf F f.blocks :=
  h.bytes_eq ▸ h.tidy.runsOf

end Represents

theorem Reached.represents {storeLength : Nat} {f : FreeList} {F : Set Nat}
    (h : Reached storeLength f F) : Represents storeLength f F := by
  induction h with
  | create _ hlimit hcreate =>
      obtain ⟨rfl, hpos, hdvd, _⟩ := create_eq_ok hcreate
      let f : FreeList := ⟨[⟨0, storeLength⟩], storeLength⟩
      exact ⟨hpos, hdvd, hlimit, rfl, tidy_reset (f := f) hpos hdvd, bytes_reset f⟩
  | reset _ ih => exact ih.reset
  | allocate _ _ hdvd htake ih => exact ih.allocate hdvd htake
  | giveBack _ hwhole hbusy hgive ih =>
      rw [ih.giveBack_eq hwhole] at hgive
      cases hgive
      exact ih.release hwhole hbusy

/-- The blocks of a free list are the maximal runs of the free bytes, whatever its history. Space is
found exactly where the set has enough bytes in a row, at the end of the lowest run that has them;
taking, giving back and resetting change the set as they say. -/
theorem reached_refines_bytes {storeLength : Nat} {f : FreeList} {F : Set Nat}
    (h : Reached storeLength f F) :
    f.bytes = F ∧ RunsOf F f.blocks ∧
    (∀ length, 0 < length → granule ∣ length →
      ((∃ answer, f.allocate length = some answer) ↔ ∃ x, ∀ i < length, x + i ∈ F) ∧
      ∀ offset f', f.allocate length = some (offset, f') →
        (∃ e, LowestRun F length e ∧ offset = e.stop - length) ∧
        Ico offset (offset + length) ⊆ F ∧ f'.bytes = F \ Ico offset (offset + length) ∧
        RunsOf (F \ Ico offset (offset + length)) f'.blocks) ∧
    (∀ e : Extent, e.Whole storeLength → (∀ x ∈ e, x ∉ F) →
      ∃ f', f.giveBack e = .ok f' ∧ f'.bytes = F ∪ Ico e.offset e.stop ∧
        RunsOf (F ∪ Ico e.offset e.stop) f'.blocks) ∧
    f.reset.bytes = Iio storeLength ∧ RunsOf (Iio storeLength) f.reset.blocks := by
  have hrep := h.represents
  refine ⟨hrep.bytes_eq, hrep.runsOf, ?_, ?_, hrep.reset.bytes_eq, hrep.reset.runsOf⟩
  · intro length hpos hdvd
    refine ⟨⟨?_, ?_⟩, ?_⟩
    · rintro ⟨⟨offset, f'⟩, htake⟩
      refine ⟨offset, fun i hi => ?_⟩
      rw [← hrep.bytes_eq]
      exact range_subset_bytes htake ⟨Nat.le_add_right _ _, Nat.add_lt_add_left hi _⟩
    · rintro ⟨x, hrow⟩
      rw [← hrep.bytes_eq] at hrow
      exact hrep.tidy.exists_allocate hpos hrow
    · intro offset f' htake
      have hafter := hrep.allocate hdvd htake
      refine ⟨?_, ?_, hafter.bytes_eq, hafter.runsOf⟩
      · rw [← hrep.bytes_eq]
        exact hrep.tidy.lowestRun htake
      · rw [← hrep.bytes_eq]
        exact range_subset_bytes htake
  · intro e hwhole hbusy
    have hafter := hrep.release hwhole hbusy
    exact ⟨f.release e, hrep.giveBack_eq hwhole, hafter.bytes_eq, hafter.runsOf⟩

/-- Two granules are taken and the upper one is given back: the two free runs do not touch. -/
theorem reached_fragmented :
    Reached 64 ⟨[⟨0, 32⟩, ⟨48, 16⟩], 64⟩
      (((Iio 64 \ Ico 48 (48 + 16)) \ Ico 32 (32 + 16)) ∪ Ico 48 (48 + 16)) := by
  have hcreate : Reached 64 ⟨[⟨0, 64⟩], 64⟩ (Iio 64) := .create reservable (by decide) rfl
  have hupper := hcreate.allocate (show 0 < 16 by decide) (by decide) rfl
  have hlower := hupper.allocate (show 0 < 16 by decide) (by decide) rfl
  refine hlower.giveBack (e := ⟨48, 16⟩) ⟨by decide, by decide, by decide, by decide⟩ ?_ rfl
  intro x hx hfree
  exact hfree.1.2 hx

theorem reached_refines_bytes_fragmented :
    let F : Set Nat := ((Iio 64 \ Ico 48 (48 + 16)) \ Ico 32 (32 + 16)) ∪ Ico 48 (48 + 16)
    Reached 64 ⟨[⟨0, 32⟩, ⟨48, 16⟩], 64⟩ F ∧ RunsOf F [⟨0, 32⟩, ⟨48, 16⟩] ∧
      (∃ x, ∀ i < 32, x + i ∈ F) ∧ ¬ ∃ x, ∀ i < 48, x + i ∈ F := by
  obtain ⟨_, hruns, htake, _⟩ := reached_refines_bytes reached_fragmented
  refine ⟨reached_fragmented, hruns, ?_, ?_⟩
  · exact (htake 32 (by decide) (by decide)).1.1 ⟨_, rfl⟩
  · rw [← (htake 48 (by decide) (by decide)).1]
    rintro ⟨answer, hanswer⟩
    cases hanswer

end FreeList
end BlockCache
