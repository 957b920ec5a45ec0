import BlockCache.Proofs.Space.Runs
import Mathlib.Data.List.TakeWhile
import Mathlib.Order.Bounds.Basic

/-!
# Reservation — the table of free blocks never grows

A free list reserves room for `maxBlocks` blocks when it is created. Blocks that keep apart leave a
granule between each other, so no more than these fit the store (`Tidy.length_blocks_le`).

While space is given back the table is changed by one block at a time, and in between it is not
tidy. `f.moments e` are the tables that it goes through; the last of them is what giving back leaves
(`getLast?_moments`), and the others are no longer than the first (`moments_cases`).
-/

namespace BlockCache

open Extent

namespace FreeList

variable {f : FreeList} {e b : Extent} {front after blocks : List Extent}

/-! ## How many blocks there can be -/

/-- Each block, with the granule behind it, takes up two granules of the store. -/
theorem length_le_of_apart {storeLength low : Nat} (hwhole : ∀ b ∈ blocks, b.Whole storeLength)
    (hapart : blocks.Pairwise Below) (hlow : ∀ b ∈ blocks, low ≤ b.offset)
    (hle : low ≤ storeLength + granule) :
    low + 2 * granule * blocks.length ≤ storeLength + granule := by
  -- The bound `low` goes on from each block to where the next one can begin.
  induction blocks generalizing low with
  | nil => exact hle
  | cons b rest ih =>
      rw [List.forall_mem_cons] at hwhole hlow
      rw [List.pairwise_cons] at hapart
      obtain ⟨hb, hrest⟩ := hwhole
      have hlength := hb.granule_le
      have hstop := hb.stop_le
      have hnext : ∀ c ∈ rest, b.stop + granule ≤ c.offset := by
        intro c hc
        have hbelow : b.stop < c.offset := hapart.1 c hc
        have hend : granule ∣ b.stop := Nat.dvd_add hb.offset_dvd hb.length_dvd
        have hgap : granule ∣ c.offset - b.stop := Nat.dvd_sub (hrest c hc).offset_dvd hend
        have hle := Nat.le_of_dvd (Nat.sub_pos_of_lt hbelow) hgap
        omega
      have hbound := ih hrest hapart.2 hnext (Nat.add_le_add_right hstop granule)
      have hoffset := hlow.1
      simp only [stop, List.length_cons, Nat.mul_succ] at hbound hstop ⊢
      omega

/-- Half of the granules, rounded up. -/
theorem maxBlocks_isLeast (storeLength : Nat) :
    IsLeast {n | storeLength / granule ≤ 2 * n} (maxBlocks storeLength) := by
  have hhalf : maxBlocks storeLength = (storeLength / granule + 1) / 2 := rfl
  constructor
  · show storeLength / granule ≤ 2 * maxBlocks storeLength
    omega
  · intro n hn
    have hle : storeLength / granule ≤ 2 * n := hn
    omega

theorem Tidy.length_blocks_le (hf : f.Tidy) : f.blocks.length ≤ maxBlocks f.storeLength := by
  have hbound : 0 + 2 * granule * f.blocks.length ≤ f.storeLength + granule :=
    length_le_of_apart hf.whole hf.apart (fun _ _ => Nat.zero_le _) (Nat.zero_le _)
  simp only [maxBlocks, granule, Footprint.extent] at hbound ⊢
  omega

/-! ## One block at a time -/

/-- The tables while `e` comes between the blocks `before` and `after`. A neighbour that `e` touches
takes it in; if both do, the first takes in all and then the second goes. -/
def tables (before : List Extent) (e : Extent) (after : List Extent) : List (List Extent) :=
  match before.getLast?.filter (·.stop = e.offset), after.head?.filter (e.stop = ·.offset) with
  | some b, some c =>
      let joined : Extent := ⟨b.offset, b.length + (e.length + c.length)⟩
      [before.dropLast ++ joined :: after, before.dropLast ++ joined :: after.tail]
  | some b, none => [before.dropLast ++ ⟨b.offset, b.length + e.length⟩ :: after]
  | none, some c =>
      [before ++ ⟨e.offset, c.length⟩ :: after.tail,
        before ++ ⟨e.offset, c.length + e.length⟩ :: after.tail]
  | none, none => [before ++ e :: after]

/-- `e` goes where it comes first, in front of a block that does not begin before it. -/
theorem place_of_le (hafter : ∀ c ∈ after.head?, e.offset ≤ c.offset) :
    place e b after = mergeBoth b e after := by
  cases after with
  | nil => rfl
  | cons c rest => rw [place, if_neg (Nat.not_lt.2 (hafter c rfl))]

theorem place_append (hfront : ∀ x ∈ front, x.offset < e.offset) (hb : b.offset < e.offset)
    (hafter : ∀ c ∈ after.head?, e.offset ≤ c.offset) (a : Extent) :
    place e a (front ++ b :: after) = a :: front ++ mergeBoth b e after := by
  induction front generalizing a with
  | nil =>
      rw [List.nil_append, place, if_pos hb, place_of_le hafter]
      rfl
  | cons x front ih =>
      rw [List.forall_mem_cons] at hfront
      rw [List.cons_append, place, if_pos hfront.1, ih hfront.2]
      rfl

theorem placeFirst_of_le (hafter : ∀ c ∈ after.head?, e.offset ≤ c.offset) :
    placeFirst e after = mergeRight e after := by
  cases after with
  | nil => rfl
  | cons c rest => rw [placeFirst, if_neg (Nat.not_lt.2 (hafter c rfl))]

theorem placeFirst_append (hfront : ∀ x ∈ front, x.offset < e.offset) (hb : b.offset < e.offset)
    (hafter : ∀ c ∈ after.head?, e.offset ≤ c.offset) :
    placeFirst e (front ++ b :: after) = front ++ mergeBoth b e after := by
  cases front with
  | nil => rw [List.nil_append, placeFirst, if_pos hb, place_of_le hafter, List.nil_append]
  | cons x front =>
      rw [List.forall_mem_cons] at hfront
      rw [List.cons_append, placeFirst, if_pos hfront.1, place_append hfront.2 hb hafter]

/-- The last table has `e` put between `before` and `after`, in one block with what it touches. -/
theorem getLast?_tables_nil : (tables [] e after).getLast? = some (mergeRight e after) := by
  cases after with
  | nil => rfl
  | cons c rest =>
      by_cases htouch : e.stop = c.offset
      · simp [tables, mergeRight, htouch, Option.filter_some, Nat.add_comm]
      · simp [tables, mergeRight, htouch, Option.filter_some]

theorem getLast?_tables_snoc :
    (tables (front ++ [b]) e after).getLast? = some (front ++ mergeBoth b e after) := by
  by_cases hbefore : b.stop = e.offset
  · have hjoined : (⟨b.offset, b.length + e.length⟩ : Extent).stop = e.stop := by
      simp only [stop] at hbefore ⊢
      omega
    cases after with
    | nil => simp [tables, mergeBoth, mergeRight, hbefore, Option.filter_some]
    | cons c rest =>
        by_cases htouch : e.stop = c.offset
        · simp [tables, mergeBoth, mergeRight, hbefore, htouch, hjoined, Option.filter_some,
            Nat.add_assoc]
        · simp [tables, mergeBoth, mergeRight, hbefore, htouch, hjoined, Option.filter_some]
  · cases after with
    | nil => simp [tables, mergeBoth, mergeRight, hbefore, Option.filter_some]
    | cons c rest =>
        by_cases htouch : e.stop = c.offset
        · simp [tables, mergeBoth, mergeRight, hbefore, htouch, Option.filter_some, Nat.add_comm]
        · simp [tables, mergeBoth, mergeRight, hbefore, htouch, Option.filter_some]

/-- A table that is not the last has no more blocks than there were before. -/
theorem length_tables {before : List Extent} (h : blocks ∈ tables before e after) :
    blocks.length ≤ (before ++ after).length ∨ (tables before e after).getLast? = some blocks := by
  unfold tables at h ⊢
  split at h
  case h_1 b c hb hc =>
    have hbefore : 0 < before.length := by
      cases before with
      | nil => cases hb
      | cons => exact Nat.succ_pos _
    rw [List.mem_cons, List.mem_singleton] at h
    rcases h with rfl | rfl
    · -- The second neighbour is still there.
      left
      simp only [List.length_append, List.length_cons, List.length_dropLast]
      omega
    · exact Or.inr rfl
  case h_2 =>
    rw [List.mem_singleton] at h
    exact Or.inr (h ▸ rfl)
  case h_3 c hb hc =>
    have hafter : 0 < after.length := by
      cases after with
      | nil => cases hc
      | cons => exact Nat.succ_pos _
    rw [List.mem_cons, List.mem_singleton] at h
    rcases h with rfl | rfl
    · -- The neighbour has been moved, but not lengthened.
      left
      simp only [List.length_append, List.length_cons, List.length_tail]
      omega
    · exact Or.inr rfl
  case h_4 =>
    rw [List.mem_singleton] at h
    exact Or.inr (h ▸ rfl)

theorem getLast?_tables {before : List Extent} (hbefore : ∀ b ∈ before, b.offset < e.offset)
    (hafter : ∀ c ∈ after.head?, e.offset ≤ c.offset) :
    (tables before e after).getLast? = some (placeFirst e (before ++ after)) := by
  rcases List.eq_nil_or_concat before with rfl | ⟨front, b, rfl⟩
  · rw [List.nil_append, getLast?_tables_nil, placeFirst_of_le hafter]
  · rw [List.concat_eq_append, List.forall_mem_append, List.forall_mem_singleton] at hbefore
    rw [List.concat_eq_append, getLast?_tables_snoc, List.append_assoc, List.singleton_append,
      placeFirst_append hbefore.1 hbefore.2 hafter]

/-! ## Giving back -/

/-- The tables of `f` while `e` is given back, from the first to the last. -/
def moments (f : FreeList) (e : Extent) : List (List Extent) :=
  f.blocks :: tables (f.blocks.takeWhile (·.offset < e.offset)) e
    (f.blocks.dropWhile (·.offset < e.offset))

theorem getLast?_tables_release (f : FreeList) (e : Extent) :
    (tables (f.blocks.takeWhile (·.offset < e.offset)) e
      (f.blocks.dropWhile (·.offset < e.offset))).getLast? = some (f.release e).blocks := by
  rw [getLast?_tables (fun b hb => by simpa using List.mem_takeWhile_imp hb) fun c hc => ?_,
    List.takeWhile_append_dropWhile]
  · rfl
  · have hnot := List.head?_dropWhile_not (fun b : Extent => b.offset < e.offset) f.blocks
    rw [Option.mem_def] at hc
    rw [hc] at hnot
    simpa using hnot

theorem getLast?_moments (f : FreeList) (e : Extent) :
    (f.moments e).getLast? = some (f.release e).blocks := by
  rw [moments, List.getLast?_cons, getLast?_tables_release]
  rfl

theorem moments_cases (h : blocks ∈ f.moments e) :
    blocks.length ≤ f.blocks.length ∨ blocks = (f.release e).blocks := by
  rw [moments, List.mem_cons] at h
  rcases h with rfl | htable
  · exact Or.inl (Nat.le_refl _)
  · rcases length_tables htable with hle | hlast
    · rw [List.takeWhile_append_dropWhile] at hle
      exact Or.inl hle
    · rw [getLast?_tables_release] at hlast
      exact Or.inr (Option.some.inj hlast).symm

/-- The tables fit the reservation, if what is given back is busy. -/
theorem Tidy.length_moments_le (hf : f.Tidy) (he : f.Returnable e) (h : blocks ∈ f.moments e) :
    blocks.length ≤ maxBlocks f.storeLength := by
  rcases moments_cases h with hle | rfl
  · exact Nat.le_trans hle hf.length_blocks_le
  · exact (hf.release he).length_blocks_le

end FreeList
end BlockCache
