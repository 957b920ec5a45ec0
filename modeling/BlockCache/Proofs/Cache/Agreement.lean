import BlockCache.Proofs.Cache.Sound
import BlockCache.Proofs.Cache.Survey
import BlockCache.Proofs.Space.Tiling
import Mathlib.Data.List.Dedup

/-!
# Agreement — what an audit that finds nothing says

`c.Agrees lists` says that the parts of a cache agree with each other if the trails of its chains
list the entries `lists`. Whatever has been done to the cache, an audit finds nothing exactly if the
parts agree (`audit_spec`).

An audit may also stop before it follows a chain, at a free block that stops beyond every word or
for want of memory for the keys (`AuditStops`). The parts of such a cache do not agree.
-/

namespace BlockCache
namespace Cache

open Catalog Extent

variable {c : Cache} {d : Directory} {lists : Nat → List Nat} {s : Survey} {ids : List Nat}

/-- The lists have every entry once, the items on them are in order, and items and free blocks
tile the store. -/
structure Agrees (c : Cache) (lists : Nat → List Nat) : Prop where
  /-- Every entry is on exactly one chain. -/
  once : ∀ id, (rows lists (c.catalog.directory.binCount + 1)).count id =
    if id < c.catalog.directory.capacity then 1 else 0
  home : ∀ b < c.catalog.directory.binCount, ∀ id ∈ lists b,
    c.catalog.directory.binOf (c.catalog.directory.item id).key = b
  keys : ((rows lists c.catalog.directory.binCount).map fun id =>
    (c.catalog.directory.item id).key).Nodup
  measured : ∀ id ∈ rows lists c.catalog.directory.binCount,
    (c.catalog.directory.item id).Measured
  len_eq : c.len = (rows lists c.catalog.directory.binCount).length
  /-- The free blocks are whole granules, in ascending order, and no two of them touch. -/
  aligned : ∀ b ∈ c.catalog.free.blocks,
    0 < b.length ∧ granule ∣ b.offset ∧ granule ∣ b.length
  apart : c.catalog.free.blocks.Pairwise Below
  /-- Every byte of the store belongs to one item or is free, and no other byte is either. -/
  tiled : ∀ x, itemCoverage c.catalog.directory lists x + coverage c.catalog.free.blocks x =
    if x < c.layout.storeLength then 1 else 0

/-! ## Comparing what a survey has met -/

/-- No entry is left unmarked if all are met. -/
theorem Survey.Marks.findIdx?_eq_none_iff (h : Survey.Marks s.seen d.capacity ids) :
    s.seen.toList.findIdx? (! ·) = none ↔ ∀ id < d.capacity, id ∈ ids := by
  rw [List.findIdx?_eq_none_iff]
  constructor
  · intro hall id hid
    have hlt : id < s.seen.size := h.size_eq ▸ hid
    rw [← h.marked_iff, Array.getElem?_eq_getElem hlt]
    have hmark := hall s.seen[id] (Array.mem_toList_iff.2 (Array.getElem_mem hlt))
    simpa using hmark
  · intro hall mark hmem
    obtain ⟨id, hid, rfl⟩ := List.mem_iff_getElem.1 hmem
    have hmark := (h.marked_iff id).2 (hall id (h.size_eq ▸ hid))
    rw [← Array.getElem?_toList, List.getElem?_eq_getElem hid] at hmark
    simpa using hmark

section Extents

variable {f : FreeList} {stop : Nat}

theorem coverage_rows (d : Directory) (lists : Nat → List Nat) (x : Nat) :
    coverage ((rows lists d.binCount).map fun id => (d.item id).extent) x =
      itemCoverage d lists x := by
  rw [coverage, List.countP_map]
  rfl

variable (hmeasured : ∀ id ∈ rows lists d.binCount, (d.item id).Measured) (hfree : f.Tidy)

include hmeasured hfree

theorem extents_pos :
    ∀ e ∈ ((rows lists d.binCount).map fun id => (d.item id).extent) ++ f.blocks,
      0 < e.length := by
  refine List.forall_mem_append.2 ⟨fun e he => ?_, fun b hb => (hfree.whole b hb).nonempty⟩
  obtain ⟨id, hid, rfl⟩ := List.mem_map.1 he
  exact Nat.lt_of_lt_of_le (hmeasured id hid).positive (hmeasured id hid).dataLength_le

/-- Where items and free blocks tile a store, their lengths add up to the length of the store. -/
theorem sumOf_lengths_of_tiled (htiled : ∀ x, itemCoverage d lists x + coverage f.blocks x =
    if x < stop then 1 else 0) :
    sumOf ((rows lists d.binCount).map fun id => (d.item id).length) + f.freeBytes = stop := by
  simp only [← coverage_rows, ← coverage_append] at htiled
  calc
    sumOf ((rows lists d.binCount).map fun id => (d.item id).length) + f.freeBytes =
        sumOf (((rows lists d.binCount).map fun id => (d.item id).length) ++
          f.blocks.map (·.length)) := List.sum_append_nat.symm
    _ = sumOf (((rows lists d.binCount).map (fun id => (d.item id).extent) ++ f.blocks).map
          (·.length)) := by
      rw [List.map_append, List.map_map]
      rfl
    _ = stop := sumOf_lengths_of_coverage (extents_pos hmeasured hfree) htiled

end Extents

/-- Items are compared for anything but their links. -/
theorem perm_map_of_unlinked {α : Type} {items rest : List Entry}
    (h : (items.map Entry.unlinked).Perm rest) (f : Entry → α)
    (hf : ∀ e : Entry, f e.unlinked = f e) : (items.map f).Perm (rest.map f) := by
  have hmap := h.map f
  rw [List.map_map] at hmap
  refine (List.Perm.of_eq ?_).trans hmap
  exact List.map_congr_left fun e _ => (hf e).symm

/-- The items and free blocks make a row of the length of a store exactly if they tile it. -/
theorem layRow_items_iff {f : FreeList} {stop : Nat} (h : Survey.Complete d lists s)
    (hmeasured : ∀ id ∈ rows lists d.binCount, (d.item id).Measured) (hfree : f.Tidy) :
    layRow 0 ((s.items.map Entry.extent ++ f.blocks).mergeSort Extent.le) = .ok stop ↔
      ∀ x, itemCoverage d lists x + coverage f.blocks x = if x < stop then 1 else 0 := by
  have hperm := perm_map_of_unlinked h.items Entry.extent fun _ => rfl
  rw [List.map_map] at hperm
  have hall := hperm.append_right f.blocks
  rw [layRow_mergeSort_eq_ok_iff fun e he => extents_pos hmeasured hfree e (hall.mem_iff.1 he)]
  simp only [← coverage_rows, ← coverage_append]
  exact forall_congr' fun x => by rw [coverage, hall.countP_eq]; rfl

/-- If the lengths fit a word, comparing never stops for a fault. It finds nothing exactly if every
entry has been met, the items are counted right, and items and free blocks tile the store. -/
theorem firstMismatch_spec (h : Survey.Complete d lists s)
    (hmeasured : ∀ id ∈ rows lists d.binCount, (d.item id).Measured) (hfree : c.catalog.free.Tidy)
    (hsum : sumOf ((rows lists d.binCount).map fun id => (d.item id).length) +
      c.catalog.free.freeBytes < Word.limit) :
    ∃ verdict, c.firstMismatch s = .ok verdict ∧ (verdict = none ↔
      (∀ id < d.capacity, id ∈ rows lists (d.binCount + 1)) ∧
        c.len = (rows lists d.binCount).length ∧
        ∀ x, itemCoverage d lists x + coverage c.catalog.free.blocks x =
          if x < c.layout.storeLength then 1 else 0) := by
  have hcount : s.items.length = (rows lists d.binCount).length := by
    have hlength := h.items.length_eq
    rwa [List.length_map, List.length_map] at hlength
  have hlengths : sumOf (s.items.map (·.length)) =
      sumOf ((rows lists d.binCount).map fun id => (d.item id).length) := by
    have hperm := perm_map_of_unlinked h.items (·.length) fun _ => rfl
    rw [List.map_map] at hperm
    exact sumOf_perm hperm
  rw [← hlengths] at hsum
  rw [← h.marks.findIdx?_eq_none_iff, ← hcount, ← layRow_items_iff h hmeasured hfree]
  simp only [firstMismatch]
  cases hfind : s.seen.toList.findIdx? (! ·) with
  | some id => exact ⟨_, rfl, iff_of_false (by simp) fun hall => by simp at hall⟩
  | none =>
      simp only [Word.checked_of_lt hsum, ok_bind]
      split_ifs with hlen htotal
      · exact ⟨_, rfl, iff_of_false (by simp) fun hall => hlen hall.2.1.symm⟩
      · -- A wrong total is reported before the row is laid, and there would be no row.
        refine ⟨_, rfl, iff_of_false (by simp) fun hall => htotal ?_⟩
        rw [hlengths]
        exact sumOf_lengths_of_tiled hmeasured hfree
          ((layRow_items_iff h hmeasured hfree).1 hall.2.2)
      · rw [Classical.not_not] at hlen
        cases hrow : layRow 0 ((s.items.map Entry.extent ++ c.catalog.free.blocks).mergeSort
            Extent.le) with
        | error v => exact ⟨_, rfl, iff_of_false (by simp) fun hall => by simp at hall⟩
        | ok cursor =>
            simp only
            split_ifs with hcursor
            · exact ⟨_, rfl, iff_of_false (by simp) fun hall =>
                hcursor (Except.ok.inj hall.2.2)⟩
            · exact ⟨_, rfl, iff_of_true rfl
                ⟨trivial, hlen.symm, congrArg _ (Classical.not_not.1 hcursor)⟩⟩

/-! ## The table of keys -/

/-- The most keys for whose table the machine has memory. -/
def grantedKeys : Nat := 7 * 2 ^ 41

theorem grantedKeys_le : grantedKeys ≤ addressableKeys := by
  decide

theorem keyTableBytes_of_le {n : Nat} (h : 8 ≤ n) :
    keyTableBytes n = 2 ^ ((n * 8 / 7 - 1).log2 + 1) * 5 + 16 := by
  rw [keyTableBytes, if_neg (by omega), keySlots, if_neg (by omega), if_neg (by omega)]
  rfl

/-- `2 ^ 44` slots are granted and `2 ^ 45` are not. -/
theorem reservable_keyTable_iff {n : Nat} :
    reservable (keyTableBytes n) = true ↔ n ≤ grantedKeys := by
  have hlimit : reservationLimit = 2 ^ 47 := rfl
  rw [reservable, decide_eq_true_eq, hlimit, grantedKeys]
  rcases Nat.lt_or_ge n 8 with hfew | hmany
  · refine iff_of_true ?_ (by omega)
    simp only [keyTableBytes, keySlots]
    split_ifs <;> omega
  · rw [keyTableBytes_of_le hmany]
    -- The slots are a power of two, so all that counts is its exponent.
    have hlog : (n * 8 / 7 - 1).log2 < 44 ↔ n * 8 / 7 - 1 < 2 ^ 44 :=
      Nat.log2_lt (by omega)
    constructor
    · intro hbytes
      have hslots : 2 ^ ((n * 8 / 7 - 1).log2 + 1) < 2 ^ 45 := by omega
      have hsmall := (Nat.pow_lt_pow_iff_right (by omega)).1 hslots
      have hkeys := hlog.1 (by omega)
      omega
    · intro hle
      have hsmall := hlog.2 (by omega)
      have hslots : 2 ^ ((n * 8 / 7 - 1).log2 + 1) ≤ 2 ^ 44 :=
        Nat.pow_le_pow_right (by omega) hsmall
      omega

theorem reserveKeys_cases (n : Nat) :
    (n ≤ grantedKeys ∧ reserveKeys n = .ok ()) ∨
      (grantedKeys < n ∧ n ≤ addressableKeys ∧ reserveKeys n = .error .refused) ∨
      (addressableKeys < n ∧ reserveKeys n = .error .unaddressable) := by
  unfold reserveKeys
  split_ifs with hmany hgranted
  · exact Or.inr (Or.inr ⟨hmany, rfl⟩)
  · exact Or.inl ⟨reservable_keyTable_iff.1 hgranted, rfl⟩
  · refine Or.inr (Or.inl ⟨?_, Nat.not_lt.1 hmany, rfl⟩)
    exact Nat.not_le.1 fun hle => hgranted (reservable_keyTable_iff.2 hle)

/-- What ends an audit without a verdict before it follows a chain. -/
inductive AuditStops (c : Cache) : Prop where
  /-- Where a free block stops is no word. -/
  | beyond (b : Extent) (hb : b ∈ c.catalog.free.blocks) (hbeyond : Word.limit ≤ b.stop)
      (hstop : c.audit = .error .overflow)
  /-- The machine has no memory for the keys of `len` items. -/
  | refused (hmany : grantedKeys < c.len) (hle : c.len ≤ addressableKeys)
      (hstop : c.audit = .error .refused)
  /-- No machine has. -/
  | unaddressable (hmany : addressableKeys < c.len) (hstop : c.audit = .error .unaddressable)

theorem AuditStops.audit_ne (h : c.AuditStops) {verdict : Option Violation} :
    c.audit ≠ .ok verdict := by
  cases h with
  | beyond _ _ _ hstop => simp [hstop]
  | refused _ _ hstop => simp [hstop]
  | unaddressable _ hstop => simp [hstop]

theorem not_auditStops (hblocks : ∀ b ∈ c.catalog.free.blocks, b.stop < Word.limit)
    (hlen : c.len ≤ grantedKeys) : ¬ c.AuditStops := by
  rintro (⟨b, hb, hbeyond, _⟩ | ⟨hmany, _, _⟩ | ⟨hmany, _⟩)
  · exact Nat.not_lt.2 hbeyond (hblocks b hb)
  · exact Nat.not_lt.2 hlen hmany
  · exact Nat.not_lt.2 (hlen.trans grantedKeys_le) hmany

/-! ## The verdict -/

/-- A cache that counts its items right gets a table for their keys. -/
theorem Agrees.len_le (h : c.Agrees lists)
    (hentries : c.catalog.directory.capacity ≤ Directory.maxEntries) : c.len ≤ grantedKeys := by
  have hlength := (perm_range_iff.2 h.once).length_eq
  rw [rows_succ, List.length_append, List.length_range, ← h.len_eq] at hlength
  have hkeys : Directory.maxEntries ≤ grantedKeys := by decide
  omega

/-- The parts agree exactly if each part of an audit finds nothing. -/
theorem agrees_iff (hplanned : c.Planned) (htrails : c.catalog.directory.Trails lists) :
    c.Agrees lists ↔ c.catalog.free.Tidy ∧ c.catalog.directory.WellChained lists ∧
      (∀ id < c.catalog.directory.capacity,
        id ∈ rows lists (c.catalog.directory.binCount + 1)) ∧
      c.len = (rows lists c.catalog.directory.binCount).length ∧
      ∀ x, itemCoverage c.catalog.directory lists x + coverage c.catalog.free.blocks x =
        if x < c.layout.storeLength then 1 else 0 := by
  have hlt : ∀ id ∈ rows lists (c.catalog.directory.binCount + 1),
      id < c.catalog.directory.capacity := by
    intro id hid
    obtain ⟨b, hb, hmem⟩ := mem_rows.1 hid
    exact htrails.lt_capacity b (Nat.le_of_lt_succ hb) id hmem
  constructor
  · rintro ⟨honce, hhome, hkeys, hmeasured, hlen, haligned, hapart, htiled⟩
    obtain ⟨hnodup, hall⟩ := (perm_range_iff_of_lt hlt).1 (perm_range_iff.2 honce)
    refine ⟨⟨fun b hb => ?_, hapart⟩, ⟨⟨?_, hhome, hkeys, hmeasured⟩, hnodup⟩, hall, hlen, htiled⟩
    · obtain ⟨hpos, hoffset, hlength⟩ := haligned b hb
      refine ⟨hpos, hoffset, hlength, ?_⟩
      -- The last byte of the block is a byte of the store.
      have hlast := htiled (b.stop - 1)
      have hcover : 0 < coverage c.catalog.free.blocks (b.stop - 1) :=
        coverage_pos_iff.2 ⟨b, hb, by simp only [mem_iff, stop]; omega⟩
      rw [hplanned.free_eq]
      split_ifs at hlast with hin <;> omega
    · rw [rows_succ] at hnodup
      exact (List.nodup_append.1 hnodup).1
  · rintro ⟨htidy, hchained, hall, hlen, htiled⟩
    refine ⟨perm_range_iff.1 ((perm_range_iff_of_lt hlt).2 ⟨hchained.once, hall⟩), hchained.home,
      hchained.keys, hchained.measured, hlen, fun b hb => ?_, htidy.apart, htiled⟩
    have hwhole := htidy.whole b hb
    exact ⟨hwhole.nonempty, hwhole.offset_dvd, hwhole.length_dvd⟩

/-- An audit reports a violation, stops, or is down to comparing what its survey has met. -/
theorem audit_cases (hbins : c.catalog.directory.binCount = c.layout.binCount)
    (htrails : c.catalog.directory.Trails lists) :
    ((∃ v, c.audit = .ok (some v)) ∧
      ¬ (c.catalog.free.Tidy ∧ c.catalog.directory.WellChained lists)) ∨
    c.AuditStops ∨
    ∃ s, c.audit = c.firstMismatch s ∧ c.catalog.free.Tidy ∧
      c.catalog.directory.WellChained lists ∧
      Survey.Complete c.catalog.directory lists s := by
  rcases c.catalog.free.audit_cases with ⟨hfree, htidy⟩ | ⟨⟨v, hfree⟩, hnot⟩ |
    ⟨hfree, b, hb, hbeyond⟩
  · rcases reserveKeys_cases c.len with ⟨_, hkeys⟩ | ⟨hmany, hle, hkeys⟩ | ⟨hmany, hkeys⟩
    · cases survey_spec rfl htrails hbins with
      | failed hnot v heq =>
          refine Or.inl ⟨⟨v, ?_⟩, fun h => hnot h.2⟩
          simp only [audit, hfree, ok_bind, hkeys, heq]
      | passed hchained s heq hcomplete =>
          refine Or.inr (Or.inr ⟨s, ?_, htidy, hchained, hcomplete⟩)
          simp only [audit, hfree, ok_bind, hkeys, heq]
    · refine Or.inr (Or.inl (.refused hmany hle ?_))
      simp only [audit, hfree, ok_bind, hkeys]
      rfl
    · refine Or.inr (Or.inl (.unaddressable hmany ?_))
      simp only [audit, hfree, ok_bind, hkeys]
      rfl
  · refine Or.inl ⟨⟨v, ?_⟩, fun h => hnot h.1⟩
    simp only [audit, hfree, ok_bind]
    rfl
  · refine Or.inr (Or.inl (.beyond b hb hbeyond ?_))
    simp only [audit, hfree]
    rfl

/-- The parts of a cache agree only if its store is as long as all its extents together. -/
theorem Agrees.store_lt (h : c.Agrees lists) (hplanned : c.Planned)
    (htrails : c.catalog.directory.Trails lists)
    (hsum : sumOf ((rows lists c.catalog.directory.binCount).dedup.map fun id =>
      (c.catalog.directory.item id).length) + c.catalog.free.freeBytes < Word.limit) :
    c.layout.storeLength < Word.limit := by
  obtain ⟨htidy, hchained, _⟩ := (agrees_iff hplanned htrails).1 h
  rw [hchained.nodup.dedup, sumOf_lengths_of_tiled h.measured htidy h.tiled] at hsum
  exact hsum

/-- The parts do not agree in a cache at which an audit stops. -/
theorem AuditStops.not_agrees (h : c.AuditStops) (hplanned : c.Planned)
    (htrails : c.catalog.directory.Trails lists)
    (hentries : c.layout.entryCount ≤ Directory.maxEntries)
    (hsum : sumOf ((rows lists c.catalog.directory.binCount).dedup.map fun id =>
      (c.catalog.directory.item id).length) + c.catalog.free.freeBytes < Word.limit) :
    ¬ c.Agrees lists := by
  intro hagrees
  have hlen := hagrees.len_le (hplanned.entries_eq ▸ hentries)
  cases h with
  | beyond b hb hbeyond _ =>
      have hstop := (((agrees_iff hplanned htrails).1 hagrees).1.whole b hb).stop_le
      rw [hplanned.free_eq] at hstop
      have hstore := hagrees.store_lt hplanned htrails hsum
      omega
  | refused hmany _ _ => exact Nat.not_lt.2 hlen hmany
  | unaddressable hmany _ => exact Nat.not_lt.2 (hlen.trans grantedKeys_le) hmany

/-- An audit of a cache that has the sizes of its layout answers unless a free block stops beyond
every word or the machine has no memory for the keys, and finds nothing exactly if the parts of the
cache agree. -/
theorem audit_spec (hplanned : c.Planned) (htrails : c.catalog.directory.Trails lists)
    (hentries : c.layout.entryCount ≤ Directory.maxEntries)
    (hsum : sumOf ((rows lists c.catalog.directory.binCount).dedup.map fun id =>
      (c.catalog.directory.item id).length) + c.catalog.free.freeBytes < Word.limit) :
    (c.audit = .ok none ↔ c.Agrees lists) ∧
      ((∀ b ∈ c.catalog.free.blocks, b.stop < Word.limit) → c.len ≤ grantedKeys →
        ∃ verdict, c.audit = .ok verdict) := by
  rcases audit_cases hplanned.bins_eq htrails with ⟨⟨v, haudit⟩, hnot⟩ | hstops |
    ⟨s, haudit, htidy, hchained, hcomplete⟩
  · rw [haudit, agrees_iff hplanned htrails]
    exact ⟨iff_of_false (by simp) fun h => hnot ⟨h.1, h.2.1⟩, fun _ _ => ⟨_, rfl⟩⟩
  · refine ⟨iff_of_false hstops.audit_ne ?_, fun hblocks hlen => ?_⟩
    · exact hstops.not_agrees hplanned htrails hentries hsum
    · exact absurd hstops (not_auditStops hblocks hlen)
  · rw [hchained.nodup.dedup] at hsum
    obtain ⟨verdict, hok, hiff⟩ := firstMismatch_spec hcomplete hchained.measured htidy hsum
    rw [haudit, hok, agrees_iff hplanned htrails]
    refine ⟨?_, fun _ _ => ⟨_, rfl⟩⟩
    rw [Except.ok.injEq, hiff]
    exact ⟨fun h => ⟨htidy, hchained, h⟩, fun h => h.2.2⟩

/-- An entry that the chains meet twice is reported, unless the audit stops. -/
theorem audit_of_not_nodup (hbins : c.catalog.directory.binCount = c.layout.binCount)
    (htrails : c.catalog.directory.Trails lists)
    (hrows : ¬ (rows lists (c.catalog.directory.binCount + 1)).Nodup) :
    (∃ v, c.audit = .ok (some v)) ∨ c.AuditStops := by
  rcases audit_cases hbins htrails with ⟨hreport, _⟩ | hstops | ⟨_, _, _, hchained, _⟩
  · exact Or.inl hreport
  · exact Or.inr hstops
  · exact absurd hchained.once hrows

/-! ## Sound caches -/

theorem Sound.agrees (h : c.Sound lists [] []) : c.Agrees lists where
  once := by
    intro id
    exact h.laid.once id
  home := h.laid.home
  keys := by
    have hnodup := h.laid.spells.rows_nodup (Nat.le_succ _)
    exact hnodup.map_on fun id hid id' hid' => h.laid.keys id hid id' hid'
  measured := fun id hid =>
    ⟨(h.laid.stored id hid).positive, (h.laid.stored id hid).dataLength_le,
      (h.laid.stored id hid).whole.length_dvd⟩
  len_eq := h.len_eq
  aligned := fun b hb =>
    ⟨(h.laid.tidy.whole b hb).nonempty, (h.laid.tidy.whole b hb).offset_dvd,
      (h.laid.tidy.whole b hb).length_dvd⟩
  apart := h.laid.tidy.apart
  tiled := by
    intro x
    rw [← h.free_eq, ← h.laid.tiled x, coverage_nil, Nat.add_zero]

/-- What is used and what is free make up the store. -/
theorem Sound.sumOf_lengths (h : c.Sound lists [] []) :
    sumOf ((rows lists c.catalog.directory.binCount).map fun id =>
      (c.catalog.directory.item id).length) + c.catalog.free.freeBytes = c.layout.storeLength :=
  sumOf_lengths_of_tiled h.agrees.measured h.laid.tidy h.agrees.tiled

theorem Sound.freeBytes_le (h : c.Sound lists [] []) :
    c.catalog.free.freeBytes ≤ c.layout.storeLength := by
  rw [← h.sumOf_lengths]
  exact Nat.le_add_left _ _

/-- An audit of a sound cache adds up no more than the store. -/
theorem Sound.sumOf_met_lt (h : c.Sound lists [] []) :
    sumOf ((rows lists c.catalog.directory.binCount).dedup.map fun id =>
      (c.catalog.directory.item id).length) + c.catalog.free.freeBytes < Word.limit := by
  have hnodup := h.laid.spells.rows_nodup (Nat.le_succ _)
  rw [hnodup.dedup, h.sumOf_lengths, ← h.free_eq]
  exact h.laid.store_lt

theorem Sound.audit_eq (h : c.Sound lists [] [])
    (hentries : c.layout.entryCount ≤ Directory.maxEntries) : c.audit = .ok none :=
  (audit_spec h.toPlanned (Directory.trails_of_leads h.laid.spells.leads) hentries
    h.sumOf_met_lt).1.2 h.agrees

end Cache
end BlockCache
