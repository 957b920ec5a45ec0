import BlockCache.Cache.Audit
import BlockCache.Proofs.Space.FreeList
import BlockCache.Proofs.Steps

/-!
# Tiling — extents that fill a store

The audit of a free list passes tidy lists and reports others, unless a block stops beyond every
word (`FreeList.audit_cases`). Extents that are sorted and laid end to end make a row of the store's
length exactly if they cover each byte of the store once, and no other byte
(`layRow_mergeSort_eq_ok_iff`). If their lengths are whole granules, so are their places
(`whole_of_coverage`).
-/

namespace BlockCache

open Extent

/-! ## The audit of a free list -/

namespace FreeList

theorem whole_iff {storeLength : Nat} {b : Extent} :
    b.Whole storeLength ↔
      ¬ (b.length = 0 ∨ b.length % granule ≠ 0 ∨ b.offset % granule ≠ 0) ∧
        ¬ storeLength < b.stop := by
  push Not
  constructor
  · rintro ⟨hpos, hoffset, hlength, hstop⟩
    exact ⟨⟨Nat.ne_of_gt hpos, Nat.mod_eq_zero_of_dvd hlength, Nat.mod_eq_zero_of_dvd hoffset⟩,
      hstop⟩
  · rintro ⟨⟨hpos, hlength, hoffset⟩, hstop⟩
    exact ⟨Nat.pos_of_ne_zero hpos, Nat.dvd_of_mod_eq_zero hoffset,
      Nat.dvd_of_mod_eq_zero hlength, hstop⟩

/-- The blocks are whole, and keep apart from each other and from the stop of the block before
them. -/
structure Follows (storeLength : Nat) (last : Option Nat) (l : List Extent) : Prop where
  whole : ∀ b ∈ l, b.Whole storeLength
  apart : l.Pairwise Below
  behind : ∀ stop, last = some stop → ∀ b ∈ l, stop < b.offset

theorem follows_nil (storeLength : Nat) (last : Option Nat) : Follows storeLength last [] :=
  ⟨by simp, List.Pairwise.nil, by simp⟩

theorem follows_cons_iff {storeLength : Nat} {last : Option Nat} {b : Extent} {rest : List Extent} :
    Follows storeLength last (b :: rest) ↔ b.Whole storeLength ∧
      (∀ stop, last = some stop → stop < b.offset) ∧ Follows storeLength (some b.stop) rest := by
  constructor
  · rintro ⟨hwhole, hapart, hbehind⟩
    rw [List.forall_mem_cons] at hwhole
    rw [List.pairwise_cons] at hapart
    refine ⟨hwhole.1, fun stop hstop => hbehind stop hstop b (List.mem_cons_self ..), hwhole.2,
      hapart.2, ?_⟩
    rintro _ ⟨⟩
    exact hapart.1
  · rintro ⟨hwhole, hfirst, hrest⟩
    have hbelow : ∀ c ∈ rest, b.Below c := hrest.behind _ rfl
    refine ⟨List.forall_mem_cons.2 ⟨hwhole, hrest.whole⟩,
      List.pairwise_cons.2 ⟨hbelow, hrest.apart⟩, fun stop hstop => ?_⟩
    refine List.forall_mem_cons.2 ⟨hfirst stop hstop, fun c hc => ?_⟩
    exact Nat.lt_of_lt_of_le (hfirst stop hstop)
      (Nat.le_trans b.offset_le_stop (Nat.le_of_lt (hbelow c hc)))

/-- Blocks that follow each other pass, and others are reported, up to a block that stops beyond
every word. -/
theorem firstBad_cases (storeLength : Nat) (last : Option Nat) (l : List Extent) :
    (firstBad storeLength last l = .ok none ∧ Follows storeLength last l) ∨
      ((∃ v, firstBad storeLength last l = .ok (some v)) ∧ ¬ Follows storeLength last l) ∨
      (firstBad storeLength last l = .error .overflow ∧ ∃ b ∈ l, Word.limit ≤ b.stop) := by
  induction l generalizing last with
  | nil => exact Or.inl ⟨rfl, follows_nil storeLength last⟩
  | cons b rest ih =>
      rw [follows_cons_iff, whole_iff]
      by_cases hgranules : b.length = 0 ∨ b.length % granule ≠ 0 ∨ b.offset % granule ≠ 0
      · refine Or.inr (Or.inl ⟨⟨.unaligned b, ?_⟩, fun h => h.1.1 hgranules⟩)
        rw [firstBad, if_pos hgranules]
      simp only [firstBad, if_neg hgranules]
      rcases Nat.lt_or_ge b.stop Word.limit with hlt | hbeyond
      · simp only [Word.checked_of_lt hlt, ok_bind]
        split_ifs with hpast hover htouch
        · exact Or.inr (Or.inl ⟨⟨_, rfl⟩, fun h => h.1.2 hpast⟩)
        · -- The block before this one stops behind the offset of this one.
          refine Or.inr (Or.inl ⟨⟨_, rfl⟩, fun ⟨_, hlast, _⟩ => ?_⟩)
          cases last with
          | none => simp at hover
          | some stop =>
              have hfirst := hlast stop rfl
              simp only [Option.any_some, decide_eq_true_eq] at hover
              omega
        · exact Or.inr (Or.inl ⟨⟨_, rfl⟩, fun h => Nat.lt_irrefl _ (h.2.1 _ htouch)⟩)
        · have hlast : ∀ stop, last = some stop → stop < b.offset := by
            rintro stop rfl
            simp only [Option.any_some, decide_eq_true_eq, Option.some.injEq] at hover htouch
            omega
          rcases ih (some b.stop) with ⟨hok, hfollows⟩ | ⟨hreport, hnot⟩ | ⟨hstop, c, hc, hle⟩
          · exact Or.inl ⟨hok, ⟨hgranules, hpast⟩, hlast, hfollows⟩
          · exact Or.inr (Or.inl ⟨hreport, fun h => hnot h.2.2⟩)
          · exact Or.inr (Or.inr ⟨hstop, c, List.mem_cons_of_mem _ hc, hle⟩)
      · simp only [Word.checked_of_le hbeyond]
        exact Or.inr (Or.inr ⟨rfl, b, List.mem_cons_self .., hbeyond⟩)

theorem follows_none_iff {f : FreeList} : Follows f.storeLength none f.blocks ↔ f.Tidy :=
  ⟨fun h => ⟨h.whole, h.apart⟩, fun h => ⟨h.whole, h.apart, by simp⟩⟩

/-- The audit of a free list passes the list if it is tidy and reports it if not, unless it meets a
block that stops beyond every word. -/
theorem audit_cases (f : FreeList) :
    (f.audit = .ok none ∧ f.Tidy) ∨ ((∃ v, f.audit = .ok (some v)) ∧ ¬ f.Tidy) ∨
      (f.audit = .error .overflow ∧ ∃ b ∈ f.blocks, Word.limit ≤ b.stop) := by
  rw [← follows_none_iff]
  exact firstBad_cases f.storeLength none f.blocks

end FreeList

/-! ## Rows -/

namespace Extent

theorem le_trans (a b c : Extent) (hab : a.le b = true) (hbc : b.le c = true) :
    a.le c = true := by
  simp only [le, Bool.or_eq_true, Bool.and_eq_true, decide_eq_true_eq, beq_iff_eq] at hab hbc ⊢
  omega

theorem le_total (a b : Extent) : (a.le b || b.le a) = true := by
  simp only [le, Bool.or_eq_true, Bool.and_eq_true, decide_eq_true_eq, beq_iff_eq]
  omega

theorem offset_le_of_le {a b : Extent} (h : a.le b = true) : a.offset ≤ b.offset := by
  simp only [le, Bool.or_eq_true, Bool.and_eq_true, decide_eq_true_eq, beq_iff_eq] at h
  omega

end Extent

namespace Cache

variable {cursor stop : Nat} {l : List Extent}

/-- The extents of a row are as long together as the row, and cover each of its bytes once. -/
theorem layRow_eq_ok (h : layRow cursor l = .ok stop) :
    cursor + sumOf (l.map (·.length)) = stop ∧
      ∀ x, coverage l x = if cursor ≤ x ∧ x < stop then 1 else 0 := by
  induction l generalizing cursor with
  | nil =>
      cases h
      refine ⟨rfl, fun x => ?_⟩
      rw [coverage_nil, if_neg (by omega)]
  | cons e rest ih =>
      simp only [layRow] at h
      split_ifs at h with hstart
      obtain ⟨hsum, hcover⟩ := ih h
      rw [Classical.not_not] at hstart
      subst hstart
      have htotal : sumOf ((e :: rest).map (·.length)) = e.length + sumOf (rest.map (·.length)) :=
        rfl
      rw [htotal]
      simp only [Extent.stop] at hsum
      refine ⟨by omega, fun x => ?_⟩
      rw [coverage_cons, hcover x]
      simp only [mem_iff, Extent.stop]
      grind

/-- Sorted extents that cover each byte of a range once lie in a row. -/
theorem layRow_eq_ok_of_coverage (hle : cursor ≤ stop) (hpos : ∀ e ∈ l, 0 < e.length)
    (hsorted : l.Pairwise fun a b => a.le b = true)
    (hcover : ∀ x, coverage l x = if cursor ≤ x ∧ x < stop then 1 else 0) :
    layRow cursor l = .ok stop := by
  induction l generalizing cursor with
  | nil =>
      -- Nothing is covered, so the range is empty.
      have hstart := hcover cursor
      rw [coverage_nil] at hstart
      split_ifs at hstart with hin
      have heq : cursor = stop := by omega
      rw [layRow, heq]
  | cons e rest ih =>
      rcases List.forall_mem_cons.1 hpos with ⟨he, hrest⟩
      rcases List.pairwise_cons.1 hsorted with ⟨hfirst, hsorted'⟩
      have hin : ∀ x ∈ e, cursor ≤ x ∧ x < stop := by
        intro x hx
        have hx' := hcover x
        rw [coverage_cons, if_pos hx] at hx'
        split_ifs at hx' with h
        · exact h
        · omega
      have hoffset := hin e.offset (offset_mem he)
      -- Whatever covers the first byte of the range begins no earlier than `e`.
      have hstart : e.offset = cursor := by
        obtain ⟨b, hb, hmem⟩ : ∃ b ∈ e :: rest, cursor ∈ b := by
          rw [← coverage_pos_iff, hcover cursor, if_pos (by omega)]
          exact Nat.one_pos
        rw [mem_iff] at hmem
        rcases List.mem_cons.1 hb with rfl | hb
        · omega
        · have hle' := offset_le_of_le (hfirst b hb)
          omega
      have hlast := hin (e.stop - 1) (by simp only [mem_iff, Extent.stop]; omega)
      have hstop : e.stop = cursor + e.length := by rw [← hstart]; rfl
      rw [layRow, if_neg (by simp [hstart])]
      apply ih (by omega) hrest hsorted'
      intro x
      have hx := hcover x
      rw [coverage_cons] at hx
      simp only [mem_iff] at hx
      split_ifs at hx ⊢ <;> omega

/-- Extents make a row of the length of a store, once they are sorted, exactly if they cover each
byte of the store once and no other byte. -/
theorem layRow_mergeSort_eq_ok_iff (hpos : ∀ e ∈ l, 0 < e.length) :
    layRow 0 (l.mergeSort Extent.le) = .ok stop ↔
      ∀ x, coverage l x = if x < stop then 1 else 0 := by
  have hperm : (l.mergeSort Extent.le).Perm l := List.mergeSort_perm l _
  have hcoverage : ∀ x, coverage (l.mergeSort Extent.le) x = coverage l x := fun x =>
    hperm.countP_eq _
  constructor
  · intro h x
    rw [← hcoverage, (layRow_eq_ok h).2 x]
    simp only [Nat.zero_le, true_and]
  · intro h
    apply layRow_eq_ok_of_coverage (Nat.zero_le _)
    · exact fun e he => hpos e (hperm.mem_iff.1 he)
    · exact List.pairwise_mergeSort Extent.le_trans Extent.le_total l
    · intro x
      simp only [hcoverage, h x, Nat.zero_le, true_and]

/-- In a row that begins at a granule, extents of whole granules lie at granules. -/
theorem layRow_whole (h : layRow cursor l = .ok stop) (hcursor : granule ∣ cursor)
    (hlengths : ∀ e ∈ l, 0 < e.length ∧ granule ∣ e.length) : ∀ e ∈ l, e.Whole stop := by
  induction l generalizing cursor with
  | nil => simp
  | cons e rest ih =>
      obtain ⟨⟨hpos, hdvd⟩, hrest⟩ := List.forall_mem_cons.1 hlengths
      simp only [layRow] at h
      split_ifs at h with hstart
      rw [Classical.not_not] at hstart
      subst hstart
      have hsum := (layRow_eq_ok h).1
      have he : e.Whole stop := ⟨hpos, hcursor, hdvd, by omega⟩
      exact List.forall_mem_cons.2 ⟨he, ih h (Nat.dvd_add hcursor hdvd) hrest⟩

/-- Extents of whole granules that cover each byte of a store once lie at granules. -/
theorem whole_of_coverage (hlengths : ∀ e ∈ l, 0 < e.length ∧ granule ∣ e.length)
    (hcover : ∀ x, coverage l x = if x < stop then 1 else 0) : ∀ e ∈ l, e.Whole stop := by
  have hrow := (layRow_mergeSort_eq_ok_iff fun e he => (hlengths e he).1).2 hcover
  have hperm : (l.mergeSort Extent.le).Perm l := List.mergeSort_perm l _
  intro e he
  exact layRow_whole hrow (Nat.dvd_zero _) (fun b hb => hlengths b (hperm.mem_iff.1 hb)) e
    (hperm.mem_iff.2 he)

theorem sumOf_perm {l m : List Nat} (h : l.Perm m) : sumOf l = sumOf m :=
  List.Perm.sum_nat h

/-- The lengths of extents that cover each byte of a store once add up to the length of the
store. -/
theorem sumOf_lengths_of_coverage (hpos : ∀ e ∈ l, 0 < e.length)
    (hcover : ∀ x, coverage l x = if x < stop then 1 else 0) :
    sumOf (l.map (·.length)) = stop := by
  have hrow := (layRow_eq_ok ((layRow_mergeSort_eq_ok_iff hpos).2 hcover)).1
  rw [Nat.zero_add] at hrow
  rw [← hrow]
  exact sumOf_perm ((List.mergeSort_perm l _).map _).symm

end Cache
end BlockCache
