import BlockCache.Proofs.Space.Coverage
import BlockCache.Space.FreeList
import Mathlib.Algebra.Order.Group.Nat

/-!
# FreeList — what taking space and giving it back do to the blocks

`FreeList.Tidy` is the invariant of a free list: whole blocks inside the store, in ascending order,
no two of which touch. Taking and giving back are described twice, by the bytes that they move
(`coverage_allocate`, `coverage_release`, which hold of every list) and by the blocks they leave
(`Tidy.allocate`, `Tidy.release`).
-/

namespace BlockCache

open Extent

/-! ## Whole blocks -/

/-- A nonempty run of granules inside a store of `storeLength` bytes. -/
structure Extent.Whole (storeLength : Nat) (e : Extent) : Prop where
  nonempty : 0 < e.length
  offset_dvd : granule ∣ e.offset
  length_dvd : granule ∣ e.length
  stop_le : e.stop ≤ storeLength

theorem Extent.Whole.granule_le {storeLength : Nat} {e : Extent} (he : e.Whole storeLength) :
    granule ≤ e.length :=
  Nat.le_of_dvd he.nonempty he.length_dvd

theorem Extent.Whole.join {storeLength : Nat} {a c : Extent} (ha : a.Whole storeLength)
    (hc : c.Whole storeLength) (h : a.stop = c.offset) :
    (⟨a.offset, a.length + c.length⟩ : Extent).Whole storeLength where
  nonempty := Nat.add_pos_left ha.nonempty _
  offset_dvd := ha.offset_dvd
  length_dvd := Nat.dvd_add ha.length_dvd hc.length_dvd
  stop_le := by
    have hstop := hc.stop_le
    simp only [stop] at h hstop ⊢
    omega

theorem Extent.Whole.shrink {storeLength length : Nat} {b : Extent} (hb : b.Whole storeLength)
    (hlt : length < b.length) (hdvd : granule ∣ length) :
    (⟨b.offset, b.length - length⟩ : Extent).Whole storeLength where
  nonempty := Nat.sub_pos_of_lt hlt
  offset_dvd := hb.offset_dvd
  length_dvd := Nat.dvd_sub hb.length_dvd hdvd
  stop_le := by
    have hstop := hb.stop_le
    simp only [stop] at hstop ⊢
    omega

namespace FreeList

/-- The set of the free bytes. -/
def bytes (f : FreeList) : Set Nat :=
  {x | 0 < coverage f.blocks x}

theorem mem_bytes {f : FreeList} {x : Nat} : x ∈ f.bytes ↔ 0 < coverage f.blocks x :=
  Iff.rfl

structure Tidy (f : FreeList) : Prop where
  whole : ∀ b ∈ f.blocks, b.Whole f.storeLength
  apart : f.blocks.Pairwise Below

/-- No byte lies in two blocks that keep apart. -/
theorem coverage_le_one {l : List Extent} (hl : l.Pairwise Below) (x : Nat) :
    coverage l x ≤ 1 := by
  induction l with
  | nil => exact Nat.zero_le 1
  | cons e l ih =>
      rw [List.pairwise_cons] at hl
      rw [coverage_cons]
      by_cases hx : x ∈ e
      · -- The other blocks begin behind `e`.
        have hnone : ¬ 0 < coverage l x := by
          rw [coverage_pos_iff]
          rintro ⟨b, hb, hmem⟩
          have hbelow : e.stop < b.offset := hl.1 b hb
          rw [mem_iff] at hx hmem
          omega
        rw [if_pos hx]
        omega
      · rw [if_neg hx, Nat.zero_add]
        exact ih hl.2

theorem Tidy.runsOf {f : FreeList} (hf : f.Tidy) : RunsOf f.bytes f.blocks :=
  runsOf_covered (fun b hb => (hf.whole b hb).nonempty) hf.apart

/-! ## The unused store -/

theorem create_eq_ok {storeLength : Nat} {grants : Nat → Bool} {f : FreeList}
    (h : create storeLength grants = .ok f) :
    f = ⟨[⟨0, storeLength⟩], storeLength⟩ ∧ 0 < storeLength ∧ granule ∣ storeLength ∧
      grants (maxBlocks storeLength * Footprint.extent) = true := by
  simp only [create] at h
  split_ifs at h with hbad hroom
  cases h
  exact ⟨rfl, by omega, Nat.dvd_of_mod_eq_zero (by omega), hroom⟩

/-- A store whose blocks are granted their room is shorter than the largest word. -/
theorem lt_limit_of_reservable {storeLength : Nat}
    (h : reservable (maxBlocks storeLength * Footprint.extent) = true) :
    storeLength < Word.limit := by
  have hroom : maxBlocks storeLength * Footprint.extent < reservationLimit := of_decide_eq_true h
  have hlimit : 2 * reservationLimit + 32 ≤ Word.limit := by decide
  simp only [maxBlocks, granule, Footprint.extent] at hroom
  omega

theorem tidy_reset {f : FreeList} (hpos : 0 < f.storeLength) (hdvd : granule ∣ f.storeLength) :
    f.reset.Tidy where
  whole := by
    intro b hb
    obtain rfl : b = ⟨0, f.storeLength⟩ := by simpa [reset] using hb
    exact ⟨hpos, Nat.dvd_zero _, hdvd, by simp [stop, reset]⟩
  apart := List.pairwise_singleton _ _

theorem coverage_reset (f : FreeList) (x : Nat) :
    coverage f.reset.blocks x = if x < f.storeLength then 1 else 0 := by
  simp [reset, coverage_cons, mem_iff, stop]

/-! ## Taking -/

theorem takeFirst_eq_none_iff {length : Nat} {l : List Extent} :
    takeFirst length l = none ↔ ∀ b ∈ l, b.length < length := by
  induction l with
  | nil => simp [takeFirst]
  | cons b rest ih =>
      simp only [takeFirst, List.forall_mem_cons]
      split_ifs with hlt heq
      · simp only [false_iff]
        omega
      · simp only [false_iff]
        omega
      · rw [Option.map_eq_none_iff, ih]
        exact ⟨fun h => ⟨by omega, h⟩, fun h => h.2⟩

/-- What is left of a list after `length` bytes have been cut from the end of the block `b`. -/
def cut (length : Nat) (b : Extent) (after : List Extent) : List Extent :=
  if length < b.length then ⟨b.offset, b.length - length⟩ :: after else after

theorem takeFirst_eq_some {length offset : Nat} {l left : List Extent}
    (h : takeFirst length l = some (offset, left)) :
    ∃ before b after, l = before ++ b :: after ∧ (∀ c ∈ before, c.length < length) ∧
      length ≤ b.length ∧ offset + length = b.stop ∧ left = before ++ cut length b after := by
  induction l generalizing offset left with
  | nil => simp [takeFirst] at h
  | cons b rest ih =>
      simp only [takeFirst] at h
      split_ifs at h with hlt heq
      · -- The block is longer than needed and loses its end.
        simp only [Option.some.injEq, Prod.mk.injEq] at h
        rcases h with ⟨rfl, rfl⟩
        refine ⟨[], b, rest, rfl, by simp, Nat.le_of_lt hlt, ?_, by simp [cut, hlt]⟩
        simp only [stop]
        omega
      · -- The block fits and goes as a whole.
        simp only [Option.some.injEq, Prod.mk.injEq] at h
        rcases h with ⟨rfl, rfl⟩
        exact ⟨[], b, rest, rfl, by simp, Nat.le_of_eq heq, by simp [stop, heq], by simp [cut, hlt]⟩
      · -- The block is too short and stays in front of what the rest becomes.
        rcases Option.map_eq_some_iff.1 h with ⟨⟨offset', left'⟩, hrest, hpair⟩
        simp only [Prod.mk.injEq] at hpair
        rcases hpair with ⟨rfl, rfl⟩
        obtain ⟨before, c, after, rfl, hsmall, hle, hstop, rfl⟩ := ih hrest
        refine ⟨b :: before, c, after, rfl, ?_, hle, hstop, rfl⟩
        exact List.forall_mem_cons.2 ⟨by omega, hsmall⟩

/-- Looking the list through first changes no answer. -/
theorem allocate_eq (f : FreeList) (length : Nat) :
    f.allocate length =
      (takeFirst length f.blocks).map
        fun (offset, left) => (offset, { f with blocks := left }) := by
  simp only [allocate]
  split_ifs with hany
  · rfl
  · have hnone : takeFirst length f.blocks = none := by
      rw [takeFirst_eq_none_iff]
      simpa using hany
    rw [hnone]
    rfl

theorem allocate_eq_none_iff {f : FreeList} {length : Nat} :
    f.allocate length = none ↔ ∀ b ∈ f.blocks, b.length < length := by
  rw [allocate_eq, Option.map_eq_none_iff, takeFirst_eq_none_iff]

/-- The space comes from the end of the first block that is long enough. -/
theorem allocate_eq_some {f f' : FreeList} {length offset : Nat}
    (h : f.allocate length = some (offset, f')) :
    ∃ before b after, f.blocks = before ++ b :: after ∧ (∀ c ∈ before, c.length < length) ∧
      length ≤ b.length ∧ offset + length = b.stop ∧
      f' = { f with blocks := before ++ cut length b after } := by
  rw [allocate_eq] at h
  rcases Option.map_eq_some_iff.1 h with ⟨⟨offset', left⟩, htake, hpair⟩
  simp only [Prod.mk.injEq] at hpair
  rcases hpair with ⟨rfl, rfl⟩
  obtain ⟨before, b, after, hblocks, hsmall, hle, hstop, rfl⟩ := takeFirst_eq_some htake
  exact ⟨before, b, after, hblocks, hsmall, hle, hstop, rfl⟩

theorem allocate_storeLength {f f' : FreeList} {length offset : Nat}
    (h : f.allocate length = some (offset, f')) : f'.storeLength = f.storeLength := by
  obtain ⟨_, _, _, _, _, _, _, rfl⟩ := allocate_eq_some h
  rfl

theorem coverage_cut {length offset : Nat} {b : Extent} (hle : length ≤ b.length)
    (hstop : offset + length = b.stop) (after : List Extent) (x : Nat) :
    coverage (b :: after) x =
      coverage (cut length b after) x + (if x ∈ (⟨offset, length⟩ : Extent) then 1 else 0) := by
  by_cases hlt : length < b.length
  · rw [cut, if_pos hlt]
    simp only [coverage_cons, mem_iff, stop] at hstop ⊢
    split_ifs <;> omega
  · rw [cut, if_neg hlt]
    simp only [coverage_cons, mem_iff, stop] at hstop ⊢
    split_ifs <;> omega

/-- Taking moves exactly the bytes that it answers. -/
theorem coverage_allocate {f f' : FreeList} {length offset : Nat}
    (h : f.allocate length = some (offset, f')) (x : Nat) :
    coverage f.blocks x =
      coverage f'.blocks x + (if x ∈ (⟨offset, length⟩ : Extent) then 1 else 0) := by
  obtain ⟨before, b, after, hblocks, _, hle, hstop, rfl⟩ := allocate_eq_some h
  calc
    coverage f.blocks x = coverage before x + coverage (b :: after) x := by
      rw [hblocks, coverage_append]
    _ = coverage before x + (coverage (cut length b after) x +
          (if x ∈ (⟨offset, length⟩ : Extent) then 1 else 0)) := by
      rw [coverage_cut hle hstop]
    _ = coverage (before ++ cut length b after) x +
          (if x ∈ (⟨offset, length⟩ : Extent) then 1 else 0) := by
      rw [coverage_append, Nat.add_assoc]

theorem whole_cut {storeLength length : Nat} {b : Extent} {after : List Extent}
    (hb : b.Whole storeLength) (hafter : ∀ c ∈ after, c.Whole storeLength)
    (hdvd : granule ∣ length) : ∀ y ∈ cut length b after, y.Whole storeLength := by
  by_cases hlt : length < b.length
  · rw [cut, if_pos hlt]
    exact List.forall_mem_cons.2 ⟨hb.shrink hlt hdvd, hafter⟩
  · rw [cut, if_neg hlt]
    exact hafter

theorem apart_cut {b : Extent} {after : List Extent} (hpair : (b :: after).Pairwise Below)
    (length : Nat) :
    (cut length b after).Pairwise Below ∧ ∀ y ∈ cut length b after, b.offset ≤ y.offset := by
  rcases List.pairwise_cons.1 hpair with ⟨hbelow, hafter⟩
  have hoffset : ∀ y ∈ after, b.offset ≤ y.offset := fun y hy =>
    Nat.le_trans b.offset_le_stop (Nat.le_of_lt (hbelow y hy))
  by_cases hlt : length < b.length
  · rw [cut, if_pos hlt]
    refine ⟨List.pairwise_cons.2 ⟨fun y hy => ?_, hafter⟩,
      List.forall_mem_cons.2 ⟨Nat.le_refl _, hoffset⟩⟩
    have hy' := hbelow y hy
    simp only [Below, stop] at hy' ⊢
    omega
  · rw [cut, if_neg hlt]
    exact ⟨hafter, hoffset⟩

/-- Taking whole granules leaves whole blocks. -/
theorem whole_blocks_allocate {f f' : FreeList} {length offset : Nat}
    (hf : ∀ b ∈ f.blocks, b.Whole f.storeLength) (hdvd : granule ∣ length)
    (h : f.allocate length = some (offset, f')) : ∀ b ∈ f'.blocks, b.Whole f'.storeLength := by
  obtain ⟨before, b, after, hblocks, _, _, _, rfl⟩ := allocate_eq_some h
  simp only [hblocks, List.forall_mem_append, List.forall_mem_cons] at hf
  exact List.forall_mem_append.2 ⟨hf.1, whole_cut hf.2.1 hf.2.2 hdvd⟩

theorem Tidy.allocate {f f' : FreeList} {length offset : Nat} (hf : f.Tidy)
    (hdvd : granule ∣ length) (h : f.allocate length = some (offset, f')) : f'.Tidy := by
  have hwhole := whole_blocks_allocate hf.whole hdvd h
  obtain ⟨before, b, after, hblocks, _, hle, hstop, rfl⟩ := allocate_eq_some h
  have hapart := hf.apart
  rw [hblocks, List.pairwise_append] at hapart
  rcases hapart with ⟨hbefore, hpair, hcross⟩
  obtain ⟨hcut, hoffset⟩ := apart_cut hpair length
  constructor
  · exact hwhole
  · refine List.pairwise_append.2 ⟨hbefore, hcut, fun a ha y hy => ?_⟩
    calc
      a.stop < b.offset := hcross a ha b (List.mem_cons_self ..)
      _ ≤ y.offset := hoffset y hy

/-- The space that is handed out is a whole block of the store. -/
theorem whole_allocate {f f' : FreeList} {length offset : Nat}
    (hf : ∀ b ∈ f.blocks, b.Whole f.storeLength) (hpos : 0 < length) (hdvd : granule ∣ length)
    (h : f.allocate length = some (offset, f')) :
    (⟨offset, length⟩ : Extent).Whole f.storeLength := by
  obtain ⟨before, b, after, hblocks, _, hle, hstop, rfl⟩ := allocate_eq_some h
  have hb : b.Whole f.storeLength := hf b (by simp [hblocks])
  refine ⟨hpos, ?_, hdvd, Nat.le_trans (Nat.le_of_eq hstop) hb.stop_le⟩
  -- The end of the space is a multiple of granules and so is its length, hence its offset.
  have hend : granule ∣ offset + length := hstop ▸ Nat.dvd_add hb.offset_dvd hb.length_dvd
  exact (Nat.dvd_add_left hdvd).1 hend

/-! ## Giving back -/

theorem coverage_mergeRight (e : Extent) (after : List Extent) (x : Nat) :
    coverage (mergeRight e after) x = coverage (e :: after) x := by
  cases after with
  | nil => rfl
  | cons c rest =>
      simp only [mergeRight]
      split_ifs with htouch
      · exact coverage_join htouch rest x
      · rfl

theorem coverage_mergeBoth (b e : Extent) (after : List Extent) (x : Nat) :
    coverage (mergeBoth b e after) x = coverage (b :: e :: after) x := by
  simp only [mergeBoth]
  split_ifs with htouch
  · rw [coverage_mergeRight, coverage_join htouch]
  · rw [coverage_cons, coverage_mergeRight, ← coverage_cons]

theorem coverage_swap (a b : Extent) (l : List Extent) (x : Nat) :
    coverage (a :: b :: l) x = coverage (b :: a :: l) x :=
  (List.Perm.swap b a l).countP_eq _

theorem coverage_place (e b : Extent) (after : List Extent) (x : Nat) :
    coverage (place e b after) x = coverage (e :: b :: after) x := by
  induction after generalizing b with
  | nil =>
      rw [place, coverage_mergeBoth, coverage_swap]
  | cons c rest ih =>
      simp only [place]
      split_ifs with hlt
      · calc
          coverage (b :: place e c rest) x = coverage (b :: e :: c :: rest) x := by
            rw [coverage_cons, ih, ← coverage_cons]
          _ = coverage (e :: b :: c :: rest) x := coverage_swap b e (c :: rest) x
      · rw [coverage_mergeBoth, coverage_swap]

/-- Giving back adds exactly the bytes that are given back, whatever the list. -/
theorem coverage_release (f : FreeList) (e : Extent) (x : Nat) :
    coverage (f.release e).blocks x = coverage (e :: f.blocks) x := by
  simp only [release]
  cases f.blocks with
  | nil => rfl
  | cons b rest =>
      simp only [placeFirst]
      split_ifs with hlt
      · exact coverage_place e b rest x
      · exact coverage_mergeRight e (b :: rest) x

section Whole

variable {storeLength : Nat} {e : Extent}

theorem whole_mergeRight {after : List Extent} (he : e.Whole storeLength)
    (hafter : ∀ c ∈ after, c.Whole storeLength) :
    ∀ y ∈ mergeRight e after, y.Whole storeLength := by
  cases after with
  | nil => simpa [mergeRight] using he
  | cons c rest =>
      rw [List.forall_mem_cons] at hafter
      simp only [mergeRight]
      split_ifs with htouch
      · exact List.forall_mem_cons.2 ⟨he.join hafter.1 htouch, hafter.2⟩
      · exact List.forall_mem_cons.2 ⟨he, List.forall_mem_cons.2 hafter⟩

theorem whole_mergeBoth {b : Extent} {after : List Extent} (hb : b.Whole storeLength)
    (he : e.Whole storeLength) (hafter : ∀ c ∈ after, c.Whole storeLength) :
    ∀ y ∈ mergeBoth b e after, y.Whole storeLength := by
  simp only [mergeBoth]
  split_ifs with htouch
  · exact whole_mergeRight (hb.join he htouch) hafter
  · exact List.forall_mem_cons.2 ⟨hb, whole_mergeRight he hafter⟩

theorem whole_place {b : Extent} {after : List Extent} (hb : b.Whole storeLength)
    (he : e.Whole storeLength) (hafter : ∀ c ∈ after, c.Whole storeLength) :
    ∀ y ∈ place e b after, y.Whole storeLength := by
  induction after generalizing b with
  | nil => exact whole_mergeBoth hb he hafter
  | cons c rest ih =>
      simp only [place]
      split_ifs with hlt
      · rw [List.forall_mem_cons] at hafter
        exact List.forall_mem_cons.2 ⟨hb, ih hafter.1 hafter.2⟩
      · exact whole_mergeBoth hb he hafter

theorem whole_release {f : FreeList} (hf : ∀ b ∈ f.blocks, b.Whole f.storeLength)
    (he : e.Whole f.storeLength) : ∀ b ∈ (f.release e).blocks, b.Whole f.storeLength := by
  show ∀ y ∈ placeFirst e f.blocks, y.Whole f.storeLength
  cases hblocks : f.blocks with
  | nil => simpa [placeFirst] using he
  | cons b rest =>
      rw [hblocks] at hf
      rcases List.forall_mem_cons.1 hf with ⟨hb, hrest⟩
      simp only [placeFirst]
      split_ifs with hlt
      · exact whole_place hb he hrest
      · exact whole_mergeRight he hf

end Whole

/-! The lists below keep apart, and a lower bound of their offsets is carried along, so that a block
can be put in front of them. -/

section Apart

variable {e : Extent}

theorem apart_cons {b : Extent} {l : List Extent} {low : Nat} (hlow : b.stop < low)
    (hl : l.Pairwise Below ∧ ∀ y ∈ l, low ≤ y.offset) :
    (b :: l).Pairwise Below ∧ ∀ y ∈ b :: l, b.offset ≤ y.offset := by
  have hbelow : ∀ y ∈ l, b.Below y := fun y hy => Nat.lt_of_lt_of_le hlow (hl.2 y hy)
  refine ⟨List.pairwise_cons.2 ⟨hbelow, hl.1⟩, List.forall_mem_cons.2 ⟨Nat.le_refl _, ?_⟩⟩
  exact fun y hy => Nat.le_trans b.offset_le_stop (Nat.le_of_lt (hbelow y hy))

/-- A list that keeps apart is bounded by the offset of its first block. -/
theorem offset_le_of_apart {c : Extent} {rest : List Extent} (h : (c :: rest).Pairwise Below) :
    ∀ y ∈ c :: rest, c.offset ≤ y.offset := by
  refine List.forall_mem_cons.2 ⟨Nat.le_refl _, fun y hy => ?_⟩
  have hbelow : c.stop < y.offset := (List.pairwise_cons.1 h).1 y hy
  exact Nat.le_trans c.offset_le_stop (Nat.le_of_lt hbelow)

theorem apart_mergeRight {after : List Extent} (hafter : after.Pairwise Below)
    (habove : ∀ c ∈ after, e.stop ≤ c.offset) :
    (mergeRight e after).Pairwise Below ∧ ∀ y ∈ mergeRight e after, e.offset ≤ y.offset := by
  cases after with
  | nil => simp [mergeRight]
  | cons c rest =>
      rcases List.pairwise_cons.1 hafter with ⟨hbelow, hrest⟩
      have hle : e.stop ≤ c.offset := habove c (List.mem_cons_self ..)
      simp only [mergeRight]
      split_ifs with htouch
      · have hjoined : (⟨e.offset, e.length + c.length⟩ : Extent).stop = c.stop := by
          simp only [stop] at htouch ⊢
          omega
        have hlow : ∀ y ∈ rest, c.stop + 1 ≤ y.offset := hbelow
        exact apart_cons (hjoined ▸ Nat.lt_succ_self c.stop) ⟨hrest, hlow⟩
      · have hlt : e.stop < c.offset := Nat.lt_of_le_of_ne hle htouch
        exact apart_cons hlt ⟨hafter, offset_le_of_apart hafter⟩

theorem apart_mergeBoth {b : Extent} {after : List Extent} (hb : b.stop ≤ e.offset)
    (hafter : after.Pairwise Below) (habove : ∀ c ∈ after, e.stop ≤ c.offset) :
    (mergeBoth b e after).Pairwise Below ∧ ∀ y ∈ mergeBoth b e after, b.offset ≤ y.offset := by
  simp only [mergeBoth]
  split_ifs with htouch
  · apply apart_mergeRight hafter
    intro c hc
    have hle := habove c hc
    simp only [stop] at htouch hle ⊢
    omega
  · exact apart_cons (Nat.lt_of_le_of_ne hb htouch) (apart_mergeRight hafter habove)

theorem apart_place {b : Extent} {after : List Extent} (hb : b.stop ≤ e.offset)
    (hpair : (b :: after).Pairwise Below)
    (hsides : ∀ c ∈ after, 0 < c.length ∧ (c.stop ≤ e.offset ∨ e.stop ≤ c.offset)) :
    (place e b after).Pairwise Below ∧ ∀ y ∈ place e b after, b.offset ≤ y.offset := by
  induction after generalizing b with
  | nil => exact apart_mergeBoth hb List.Pairwise.nil (by simp)
  | cons c rest ih =>
      rcases List.pairwise_cons.1 hpair with ⟨hbelow, hrest⟩
      rcases List.forall_mem_cons.1 hsides with ⟨⟨hcpos, hcside⟩, hsides'⟩
      have hbc : b.stop < c.offset := hbelow c (List.mem_cons_self ..)
      have hec := e.offset_le_stop
      simp only [place]
      split_ifs with hlt
      · -- `c` begins before `e`, so it ends there too and is the next to look behind.
        exact apart_cons hbc (ih (by omega) hrest hsides')
      · have hcc : c.offset < c.stop := (offset_mem hcpos).2
        have hce : e.stop ≤ c.offset := by omega
        apply apart_mergeBoth hb hrest
        exact fun y hy => Nat.le_trans hce (offset_le_of_apart hrest y hy)

end Apart

/-- `e` lies inside the store and none of its bytes is free. -/
structure Returnable (f : FreeList) (e : Extent) : Prop where
  whole : e.Whole f.storeLength
  busy : ∀ x ∈ e, x ∉ f.bytes

/-- A busy extent lies on one side of every block. -/
theorem Returnable.sides {f : FreeList} {e : Extent} (he : f.Returnable e) :
    ∀ c ∈ f.blocks, 0 < c.length → c.stop ≤ e.offset ∨ e.stop ≤ c.offset := by
  intro c hc hcpos
  exact sides_of_disjoint he.whole.nonempty hcpos fun x hx hxc =>
    he.busy x hx (coverage_pos_iff.2 ⟨c, hc, hxc⟩)

theorem Tidy.release {f : FreeList} {e : Extent} (hf : f.Tidy) (he : f.Returnable e) :
    (f.release e).Tidy := by
  rcases hf with ⟨hwhole, hapart⟩
  have hpos : ∀ c ∈ f.blocks, 0 < c.length := fun c hc => (hwhole c hc).nonempty
  have hsides : ∀ c ∈ f.blocks, 0 < c.length ∧ (c.stop ≤ e.offset ∨ e.stop ≤ c.offset) :=
    fun c hc => ⟨hpos c hc, he.sides c hc (hpos c hc)⟩
  constructor
  · exact whole_release hwhole he.whole
  · show (placeFirst e f.blocks).Pairwise Below
    cases hblocks : f.blocks with
    | nil => simp [placeFirst]
    | cons b rest =>
        rw [hblocks] at hapart hsides
        rcases List.forall_mem_cons.1 hsides with ⟨⟨hbpos, hbside⟩, hrest⟩
        have hbb : b.offset < b.stop := (offset_mem hbpos).2
        have hee := e.offset_le_stop
        simp only [placeFirst]
        split_ifs with hlt
        · exact (apart_place (by omega) hapart hrest).1
        · have heb : e.stop ≤ b.offset := by omega
          refine (apart_mergeRight hapart fun y hy => ?_).1
          exact Nat.le_trans heb (offset_le_of_apart hapart y hy)

theorem giveBack_eq {f : FreeList} {e : Extent} (h : e.stop < Word.limit) :
    f.giveBack e = .ok (f.release e) := by
  simp [giveBack, Word.checked, h, bind, Except.bind, pure, Except.pure]

end FreeList
end BlockCache
