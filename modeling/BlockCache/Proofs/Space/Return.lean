import BlockCache.Proofs.Space.Reservation
import BlockCache.Proofs.Steps

/-!
# Return — the free list keeps no trace of what was taken

Space that is given back as soon as it was taken leaves the very list that there was before
(`Tidy.release_of_allocate`). Busy extents that share no byte can be given back one after the other
(`Reached.giveBackAll`); the list that this leaves stands for the free bytes together with theirs,
whatever the order, and the bytes tell the list.
-/

namespace BlockCache

open Extent Set

namespace FreeList

variable {storeLength length offset : Nat} {f f' : FreeList} {F : Set Nat} {b : Extent}
  {front after es : List Extent}

/-! ## Giving back what was just taken -/

theorem mergeRight_of_apart (h : (b :: after).Pairwise Below) :
    mergeRight b after = b :: after := by
  cases after with
  | nil => rfl
  | cons c rest =>
      have hbelow : b.stop < c.offset := (List.pairwise_cons.1 h).1 c (List.mem_cons_self ..)
      rw [mergeRight, if_neg (Nat.ne_of_lt hbelow)]

/-- Where a list that keeps apart lacks one block, the block goes back as it was. -/
theorem placeFirst_of_apart (h : (front ++ b :: after).Pairwise Below) :
    placeFirst b (front ++ after) = front ++ b :: after := by
  obtain ⟨_, hpair, hcross⟩ := List.pairwise_append.1 h
  have hfront : ∀ x ∈ front, x.stop < b.offset := fun x hx =>
    hcross x hx b (List.mem_cons_self ..)
  have hafter : ∀ c ∈ after.head?, b.offset ≤ c.offset := fun c hc =>
    offset_le_of_apart hpair c (List.mem_cons_of_mem b (List.mem_of_head? hc))
  rcases List.eq_nil_or_concat front with rfl | ⟨front, x, rfl⟩
  · rw [List.nil_append, placeFirst_of_le hafter, mergeRight_of_apart hpair, List.nil_append]
  · rw [List.concat_eq_append, List.forall_mem_append, List.forall_mem_singleton] at hfront
    have hoffset : ∀ y : Extent, y.stop < b.offset → y.offset < b.offset := fun y hy =>
      Nat.lt_of_le_of_lt y.offset_le_stop hy
    rw [List.concat_eq_append, List.append_assoc, List.append_assoc, List.singleton_append,
      List.singleton_append,
      placeFirst_append (fun y hy => hoffset y (hfront.1 y hy)) (hoffset x hfront.2) hafter,
      mergeBoth, if_neg (Nat.ne_of_lt hfront.2), mergeRight_of_apart hpair]

/-- The end that was cut from a block is joined to what is left of the block. -/
theorem placeFirst_of_cut (h : (front ++ b :: after).Pairwise Below) (hlt : length < b.length)
    (hstop : offset + length = b.stop) :
    placeFirst ⟨offset, length⟩ (front ++ ⟨b.offset, b.length - length⟩ :: after) =
      front ++ b :: after := by
  obtain ⟨_, hpair, hcross⟩ := List.pairwise_append.1 h
  have hoffset : offset = b.offset + (b.length - length) := by
    simp only [stop] at hstop
    omega
  have hfront : ∀ x ∈ front, x.offset < offset := by
    intro x hx
    have hbelow : x.stop < b.offset := hcross x hx b (List.mem_cons_self ..)
    have hle := x.offset_le_stop
    omega
  have hafter : ∀ c ∈ after.head?, offset ≤ c.offset := by
    intro c hc
    have hbelow : b.stop < c.offset := (List.pairwise_cons.1 hpair).1 c (List.mem_of_head? hc)
    omega
  have hleft : b.offset < offset := by omega
  have hjoined : b.length - length + length = b.length := Nat.sub_add_cancel (Nat.le_of_lt hlt)
  rw [placeFirst_append hfront hleft hafter, mergeBoth, if_pos (by exact hoffset.symm)]
  simp only [hjoined, mergeRight_of_apart hpair]

theorem Tidy.release_of_allocate (hf : f.Tidy) (h : f.allocate length = some (offset, f')) :
    f'.release ⟨offset, length⟩ = f := by
  obtain ⟨front, b, after, hblocks, _, hle, hstop, rfl⟩ := allocate_eq_some h
  have hapart := hf.apart
  rw [hblocks] at hapart
  rw [FreeList.release]
  rcases Nat.lt_or_eq_of_le hle with hlt | rfl
  · rw [cut, if_pos hlt, placeFirst_of_cut hapart hlt hstop, ← hblocks]
  · -- The block was used up, so it is what comes back.
    obtain rfl : offset = b.offset := Nat.add_right_cancel hstop
    rw [cut, if_neg (Nat.lt_irrefl _), placeFirst_of_apart hapart, ← hblocks]

theorem Represents.giveBack_of_allocate (h : Represents storeLength f F)
    (htake : f.allocate length = some (offset, f')) :
    f'.giveBack ⟨offset, length⟩ = .ok f := by
  rw [FreeList.giveBack_eq, h.tidy.release_of_allocate htake]
  obtain ⟨front, b, after, hblocks, _, _, hstop, _⟩ := allocate_eq_some htake
  have hb := (h.tidy.whole b (by simp [hblocks])).stop_le
  calc
    offset + length = b.stop := hstop
    _ ≤ f.storeLength := hb
    _ = storeLength := h.length_eq
    _ < Word.limit := h.addressable

/-! ## Giving back extent by extent -/

/-- Busy extents that share no byte can be given back one after the other. -/
theorem Reached.giveBackAll (h : Reached storeLength f F) (hwhole : ∀ e ∈ es, e.Whole storeLength)
    (hbusy : ∀ e ∈ es, ∀ x ∈ e, x ∉ F) (hapart : es.Pairwise fun a b => ∀ x ∈ a, x ∉ b) :
    ∃ f', es.foldlM FreeList.giveBack f = .ok f' ∧
      Reached storeLength f' (F ∪ {x | ∃ e ∈ es, x ∈ e}) := by
  induction es generalizing f F with
  | nil => exact ⟨f, rfl, by simpa using h⟩
  | cons e rest ih =>
      rw [List.forall_mem_cons] at hwhole hbusy
      rw [List.pairwise_cons] at hapart
      have hgive := h.represents.giveBack_eq hwhole.1
      -- The bytes of `e` are free from now on, and the rest has none of them.
      have hrest : ∀ e' ∈ rest, ∀ x ∈ e', x ∉ F ∪ Ico e.offset e.stop := by
        rintro e' he' x hx (hfree | hin)
        · exact hbusy.2 e' he' x hx hfree
        · exact hapart.1 e' he' x hin hx
      obtain ⟨f', hall, hreached⟩ :=
        ih (h.giveBack hwhole.1 hbusy.1 hgive) hwhole.2 hrest hapart.2
      refine ⟨f', by rw [List.foldlM_cons, hgive, ok_bind, hall], ?_⟩
      have hbytes : F ∪ Ico e.offset e.stop ∪ {x | ∃ e' ∈ rest, x ∈ e'} =
          F ∪ {x | ∃ e' ∈ e :: rest, x ∈ e'} := by
        ext x
        simp only [mem_union, mem_Ico, mem_ofPred_eq, List.mem_cons, exists_eq_or_imp,
          ← Extent.mem_iff, or_assoc]
      rwa [hbytes] at hreached

theorem Represents.subset_store (h : Represents storeLength f F) : F ⊆ Iio storeLength := by
  intro x hx
  rw [← h.bytes_eq, mem_bytes, coverage_pos_iff] at hx
  obtain ⟨b, hb, hmem⟩ := hx
  rw [mem_Iio, ← h.length_eq]
  exact Nat.lt_of_lt_of_le hmem.2 (h.tidy.whole b hb).stop_le

/-- If every byte of the store is free, they are one block. -/
theorem Represents.blocks_of_all (h : Represents storeLength f F) (hall : Iio storeLength ⊆ F) :
    f.blocks = [⟨0, storeLength⟩] := by
  have hruns := h.runsOf
  rw [h.subset_store.antisymm hall] at hruns
  rw [hruns.unique h.reset.runsOf, FreeList.reset, h.length_eq]

/-- What has just been taken can be given back, and then the list is the one before. Busy extents
that share no byte can be given back in any order, and every order leaves one and the same list,
which is a single block if the extents are all that is not free. An extent without bytes is never
given back: it would become a block of its own. -/
theorem reached_restores (h : Reached storeLength f F) :
    (∀ length offset f', f.allocate length = some (offset, f') →
      f'.giveBack ⟨offset, length⟩ = .ok f) ∧
    ∀ es : List Extent, (∀ e ∈ es, e.Whole storeLength) → (∀ e ∈ es, ∀ x ∈ e, x ∉ F) →
      es.Pairwise (fun a b => ∀ x ∈ a, x ∉ b) →
      ∃ f', (∀ es' : List Extent, es'.Perm es → es'.foldlM giveBack f = .ok f') ∧
        RunsOf (F ∪ {x | ∃ e ∈ es, x ∈ e}) f'.blocks ∧
        ((∀ x < storeLength, x ∈ F ∨ ∃ e ∈ es, x ∈ e) → f'.blocks = [⟨0, storeLength⟩]) := by
  refine ⟨fun length offset f' htake => h.represents.giveBack_of_allocate htake,
    fun es hwhole hbusy hapart => ?_⟩
  obtain ⟨f', _, hreached⟩ := h.giveBackAll hwhole hbusy hapart
  have hrep := hreached.represents
  refine ⟨f', fun es' hperm => ?_, hrep.runsOf, hrep.blocks_of_all⟩
  -- In another order the same bytes become free, and they tell the list.
  have hsymm : ∀ {a b : Extent}, (∀ x ∈ a, x ∉ b) → ∀ x ∈ b, x ∉ a := fun hab x hxb hxa =>
    hab x hxa hxb
  obtain ⟨f'', hall, hreached'⟩ := h.giveBackAll (fun e he => hwhole e (hperm.mem_iff.1 he))
    (fun e he => hbusy e (hperm.mem_iff.1 he)) (hapart.perm hperm.symm hsymm)
  simp only [hperm.mem_iff] at hreached'
  have hrep' := hreached'.represents
  have hblocks : f''.blocks = f'.blocks := hrep'.runsOf.unique hrep.runsOf
  have hlength : f''.storeLength = f'.storeLength := hrep'.length_eq.trans hrep.length_eq.symm
  cases f'
  cases f''
  cases hblocks
  cases hlength
  exact hall

/-- Four granules, of which the second and the fourth are busy. -/
theorem reached_alternating :
    Reached 64 ⟨[⟨0, 16⟩, ⟨32, 16⟩], 64⟩
      ((((Iio 64 \ Ico 48 (48 + 16)) \ Ico 32 (32 + 16)) \ Ico 16 (16 + 16)) ∪
        Ico 32 (32 + 16)) := by
  have hcreate : Reached 64 ⟨[⟨0, 64⟩], 64⟩ (Iio 64) := .create reservable (by decide) rfl
  have hfourth := hcreate.allocate (show 0 < 16 by decide) (by decide) rfl
  have hthird := hfourth.allocate (show 0 < 16 by decide) (by decide) rfl
  have hsecond := hthird.allocate (show 0 < 16 by decide) (by decide) rfl
  refine hsecond.giveBack (e := ⟨32, 16⟩) ⟨by decide, by decide, by decide, by decide⟩ ?_ rfl
  intro x hx hfree
  exact hfree.1.2 hx

/-- Given back in one order, the second granule joins its neighbours and then the fourth is added;
in the other, the fourth is added first. -/
theorem reached_restores_alternating :
    let f : FreeList := ⟨[⟨0, 16⟩, ⟨32, 16⟩], 64⟩
    (∃ F, Reached 64 f F) ∧ giveBack ⟨[⟨32, 16⟩], 64⟩ ⟨0, 16⟩ = .ok f ∧
      ∃ f', [⟨16, 16⟩, ⟨48, 16⟩].foldlM giveBack f = .ok f' ∧
        [⟨48, 16⟩, ⟨16, 16⟩].foldlM giveBack f = .ok f' ∧ f'.blocks = [⟨0, 64⟩] := by
  obtain ⟨htaken, hall⟩ := reached_restores reached_alternating
  have hwhole : ∀ e ∈ [⟨16, 16⟩, ⟨48, 16⟩], Extent.Whole 64 e := by
    simp only [List.forall_mem_cons]
    exact ⟨⟨by decide, by decide, by decide, by decide⟩, ⟨by decide, by decide, by decide,
      by decide⟩, by simp⟩
  have hbusy : ∀ e ∈ [(⟨16, 16⟩ : Extent), ⟨48, 16⟩], ∀ x ∈ e,
      x ∉ ((((Iio 64 \ Ico 48 (48 + 16)) \ Ico 32 (32 + 16)) \ Ico 16 (16 + 16)) ∪
        Ico 32 (32 + 16) : Set Nat) := by
    simp only [List.forall_mem_cons, mem_union, mem_sdiff, mem_Ico, mem_Iio, Extent.mem_iff, stop]
    exact ⟨by omega, by omega, by simp⟩
  have hapart : [(⟨16, 16⟩ : Extent), ⟨48, 16⟩].Pairwise fun a b => ∀ x ∈ a, x ∉ b := by
    simp only [List.pairwise_pair, Extent.mem_iff, stop]
    omega
  obtain ⟨f', hperm, _, hone⟩ := hall _ hwhole hbusy hapart
  refine ⟨⟨_, reached_alternating⟩, htaken 16 0 _ rfl, f', hperm _ (List.Perm.refl _),
    hperm _ (List.Perm.swap _ _ _), hone fun x hx => ?_⟩
  simp only [List.mem_cons, exists_eq_or_imp, List.not_mem_nil, mem_union, mem_sdiff, mem_Ico,
    mem_Iio, Extent.mem_iff, stop]
  omega

end FreeList
end BlockCache
