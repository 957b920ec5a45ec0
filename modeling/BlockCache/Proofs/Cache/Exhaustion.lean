import BlockCache.Proofs.Cache.Agreement
import BlockCache.Proofs.Cache.Room

/-!
# Exhaustion — how the search for space ends

* `c.Partitioned lists` — the chains of `c` are `lists` and have each entry once, and the items and
  free blocks tile the store. Which keys and times the items have, and how many bytes of theirs are
  used, is left open, and so is how much has been counted.
* `c.Vacant` — every bin of `c` is empty, every entry is spare, and the store is one free block.

The search for space evicts while there is no room. Each eviction takes one entry off the bins, and
gives its bytes back to free blocks that grow together in whatever order the items go. So the search
ends after no more evictions than there are items, and if it fails, the cache is vacant and had no
room for the bytes from the beginning (`Partitioned.allocate_ends`). It stops on its way only if the
evictions cannot be counted, which takes a counter that cannot go up once for each item.
-/

namespace BlockCache
namespace Cache

open Catalog Extent

variable {c c' : Cache} {lists : Nat → List Nat} {loose : List Nat} {held : List Extent}
  {length : Nat}

/-! ## States of a search -/

structure Partitioned (c : Cache) (lists : Nat → List Nat) : Prop where
  sized : c.catalog.Sized
  free_eq : c.catalog.free.storeLength = c.layout.storeLength
  spells : c.catalog.directory.Spells lists
  /-- Every entry is on one of the chains, once. -/
  entries : (rows lists (c.catalog.directory.binCount + 1)).Perm
    (List.range c.catalog.directory.capacity)
  len_eq : c.len = (rows lists c.catalog.directory.binCount).length
  lengths : ∀ id ∈ rows lists c.catalog.directory.binCount,
    0 < (c.catalog.directory.item id).length ∧ granule ∣ (c.catalog.directory.item id).length
  blockLengths : ∀ b ∈ c.catalog.free.blocks, 0 < b.length ∧ granule ∣ b.length
  /-- The free blocks are in ascending order, and no two of them touch. -/
  apart : c.catalog.free.blocks.Pairwise Below
  /-- Every byte of the store belongs to one item or is free, and no other byte is either. -/
  tiled : ∀ x, itemCoverage c.catalog.directory lists x + coverage c.catalog.free.blocks x =
    if x < c.layout.storeLength then 1 else 0

/-- Nothing of the cache is used. -/
structure Vacant (c : Cache) : Prop where
  len_eq : c.len = 0
  bins : ∀ b < c.catalog.directory.binCount, c.catalog.directory.chain b = .ok []
  spare : ∃ ids, c.catalog.directory.chain c.catalog.directory.binCount = .ok ids ∧
    ids.Perm (List.range c.catalog.directory.capacity)
  free : c.catalog.free.blocks = [⟨0, c.layout.storeLength⟩]

/-- Where items and free blocks tile the store, they lie at granules. -/
theorem Partitioned.whole (h : c.Partitioned lists) :
    ∀ e ∈ ((rows lists c.catalog.directory.binCount).map fun id =>
      (c.catalog.directory.item id).extent) ++ c.catalog.free.blocks,
      e.Whole c.catalog.free.storeLength := by
  refine whole_of_coverage (List.forall_mem_append.2 ⟨fun e he => ?_, h.blockLengths⟩) fun x => ?_
  · obtain ⟨id, hid, rfl⟩ := List.mem_map.1 he
    exact h.lengths id hid
  · rw [coverage_append, coverage_rows, h.free_eq]
    exact h.tiled x

theorem Partitioned.catalog (h : c.Partitioned lists) : c.catalog.Apportioned lists [] [] := by
  obtain ⟨hitems, hblocks⟩ := List.forall_mem_append.1 h.whole
  refine {
    toSized := h.sized
    spells := h.spells
    once := perm_range_iff.1 h.entries
    whole := fun id hid => hitems _ (List.mem_map_of_mem hid)
    tidy := ⟨hblocks, h.apart⟩
    tiled := fun x => ?_ }
  rw [coverage_nil, Nat.add_zero, h.free_eq]
  exact h.tiled x

theorem Partitioned.apportioned (h : c.Partitioned lists) : c.Apportioned lists [] [] :=
  ⟨h.catalog, h.len_eq⟩

theorem Apportioned.partitioned (h : c.Apportioned lists [] [])
    (hfree : c.catalog.free.storeLength = c.layout.storeLength) : c.Partitioned lists where
  sized := h.catalog.toSized
  free_eq := hfree
  spells := h.catalog.spells
  entries := perm_range_iff.2 h.catalog.once
  len_eq := h.len_eq
  lengths := fun id hid =>
    ⟨(h.catalog.whole id hid).nonempty, (h.catalog.whole id hid).length_dvd⟩
  blockLengths := fun b hb =>
    ⟨(h.catalog.tidy.whole b hb).nonempty, (h.catalog.tidy.whole b hb).length_dvd⟩
  apart := h.catalog.tidy.apart
  tiled := by
    intro x
    have htiled := h.catalog.tiled x
    rwa [coverage_nil, Nat.add_zero, hfree] at htiled

/-- Whatever requests have been made of a cache, it is partitioned. -/
theorem Sound.partitioned (h : c.Sound lists [] []) : c.Partitioned lists :=
  h.apportioned.partitioned h.free_eq

/-! ## Evictions on the way -/

/-- Evictions leave a partitioned cache partitioned. -/
theorem EvictsWhile.partitioned {p : Cache → Prop} {es : List Eviction} (h : EvictsWhile p c es c')
    (hc : c.Partitioned lists) :
    ∃ lists', c'.Partitioned lists' ∧ c.Keeps lists (fun id => id ∉ es.map (·.id)) c' lists' ∧
      c.Evicted es.length c' := by
  obtain ⟨lists', h', hkeeps, hstore, _, _, hgone⟩ := h.apportioned_spec hc.apportioned
  refine ⟨lists', h'.partitioned ?_, hkeeps, hgone⟩
  rw [hstore, hc.free_eq, hkeeps.layout_eq]

/-- Evictions that leave no item take each item once. -/
theorem Partitioned.perm_of_all {es : List Eviction} {lists' : Nat → List Nat}
    (h : c.Partitioned lists)
    (hkeeps : c.Keeps lists (fun id => id ∉ es.map (·.id)) c' lists')
    (hlen : c'.len + es.length = c.len)
    (hempty : rows lists' c'.catalog.directory.binCount = []) :
    (es.map (·.id)).Perm (rows lists c.catalog.directory.binCount) := by
  have hall : rows lists c.catalog.directory.binCount ⊆ es.map (·.id) := by
    intro id hid
    by_contra hleft
    have hmem := hkeeps.mem_rows_iff.2 ⟨hid, hleft⟩
    rw [hempty] at hmem
    cases hmem
  have hnodup := h.spells.rows_nodup (Nat.le_succ c.catalog.directory.binCount)
  refine ((hnodup.subperm hall).perm_of_length_le ?_).symm
  rw [List.length_map, ← h.len_eq]
  omega

/-- No block is longer than the store. -/
theorem Partitioned.le_of_hasRoom (h : c.Partitioned lists) (hroom : c.HasRoom length) :
    length ≤ c.layout.storeLength := by
  obtain ⟨b, hb, hle⟩ := hroom
  have hstop := (h.whole b (List.mem_append_right _ hb)).stop_le
  rw [h.free_eq] at hstop
  exact hle.trans ((Nat.le_add_left _ _).trans hstop)

theorem Partitioned.vacant (h : c.Partitioned lists) (hlen : c.len = 0) :
    c.Vacant ∧ rows lists c.catalog.directory.binCount = [] := by
  have hempty : rows lists c.catalog.directory.binCount = [] := by
    rw [← List.length_eq_zero_iff, ← h.len_eq]
    exact hlen
  refine ⟨⟨hlen, fun b hb => ?_, ⟨_, h.spells.chain_eq (Nat.le_refl _), ?_⟩, ?_⟩, hempty⟩
  · rw [h.spells.chain_eq (Nat.le_of_lt hb)]
    rw [rows, List.flatMap_eq_nil_iff] at hempty
    rw [hempty b (List.mem_range.2 hb)]
  · -- The spare chain is all that is left of the row.
    have hentries := h.entries
    rwa [rows_succ, hempty, List.nil_append] at hentries
  · rw [h.catalog.blocks_of_no_items hempty, h.free_eq]

/-! ## The end of a search -/

/-- The search for `length` bytes ends, whatever its items are. It evicts only while no free block
has room, and no more items than there are. It finds room exactly if the store is long enough, and
where it does not, it has evicted each item once and has left the cache vacant. If the counter of
evictions cannot go up once for each item, it may also stop at an eviction that would overflow it. -/
theorem Partitioned.allocate_ends (h : c.Partitioned lists) (length : Nat) :
    ∃ es s lists', EvictsWhile (fun c => ¬ c.HasRoom length) c es s ∧ es.length ≤ c.len ∧
      s.Partitioned lists' ∧ c.Keeps lists (fun id => id ∉ es.map (·.id)) s lists' ∧
      ((∃ answer c', c.allocate length = .ok ⟨answer, c', es.map .evicted⟩ ∧
          (answer.isSome ↔ length ≤ c.layout.storeLength) ∧
          (∀ offset, answer = some offset →
            ∃ f, s.catalog.free.allocate length = some (offset, f) ∧ c' = s.withFree f) ∧
          (answer = none →
            c' = s ∧ s.Vacant ∧
              (es.map (·.id)).Perm (rows lists c.catalog.directory.binCount))) ∨
        (Word.limit ≤ c.counters.evictions + c.len ∧ ¬ s.HasRoom length ∧
          Word.limit ≤ c.counters.evictions + es.length + 1 ∧
          ∃ i, c.allocate length = .error i ∧ i.fault = .overflow ∧ i.len + 1 = s.len)) := by
  obtain ⟨es, s, hes, hend⟩ := h.apportioned.allocateWithin_spec length (Nat.le_refl c.len)
  obtain ⟨lists', hs, hkeeps, hgone⟩ := hes.partitioned h
  have hevicts : EvictsWhile (fun c => ¬ c.HasRoom length) c es s :=
    hes.mono fun s hnone => by rw [hasRoom_iff, hnone, not_not]
  have hlen := hgone.len_add
  refine ⟨es, s, lists', hevicts, Nat.le.intro ((Nat.add_comm _ _).trans hlen), hs, hkeeps, ?_⟩
  generalize hsearch : allocateWithin length c.len c = outcome at hend
  cases hend with
  | @found offset f htake =>
      have hroom : s.HasRoom length := by
        rw [hasRoom_iff, htake]
        exact Option.some_ne_none _
      refine Or.inl ⟨some offset, s.withFree f, hsearch,
        iff_of_true rfl (hkeeps.layout_eq ▸ hs.le_of_hasRoom hroom), ?_, by simp⟩
      rintro _ ⟨⟩
      exact ⟨f, htake, rfl⟩
  | exhausted hnone hzero =>
      obtain ⟨hvacant, hempty⟩ := hs.vacant hzero
      have hlong : ¬ length ≤ c.layout.storeLength := by
        intro hfits
        rw [← hkeeps.layout_eq, ← hs.free_eq] at hfits
        exact hs.apportioned.allocate_ne_none hzero hfits hnone
      exact Or.inl ⟨none, s, hsearch, iff_of_false (by simp) hlong, by simp,
        fun _ => ⟨rfl, hvacant, h.perm_of_all hkeeps hlen hempty⟩⟩
  | @uncounted i hnone hfull hfault hleft =>
      -- The counter has gone up once for each of `es`, and an item is left.
      have hcount : s.counters.evictions = c.counters.evictions + es.length := by
        rw [hgone.counters_eq]
      refine Or.inr ⟨by omega, ?_, by omega, i, hsearch, hfault, hleft⟩
      rw [hasRoom_iff, hnone, not_not]

/-- Two items of one bin with the same key, and used last at the same time. -/
def twofold : Cache :=
  { smallest with
    len := 2
    catalog := ⟨⟨#[some 0], none, #[⟨some 1, 1, 320, 16, 1, 5⟩, ⟨none, 1, 304, 16, 1, 5⟩]⟩,
      ⟨[⟨0, 304⟩], 336⟩⟩ }

theorem partitioned_twofold : twofold.Partitioned fun b => if b = 0 then [0, 1] else [] where
  sized := ⟨by decide, by decide, by decide, by decide, by decide, by decide⟩
  free_eq := rfl
  spells := {
    leads := by
      intro b hb
      obtain rfl | rfl : b = 0 ∨ b = 1 := Nat.le_one_iff_eq_zero_or_eq_one.1 hb
      · exact ⟨rfl, some 1, rfl, rfl, none, rfl, rfl⟩
      · exact rfl
    apart := by decide }
  entries := List.Perm.refl [0, 1]
  len_eq := rfl
  lengths := by decide
  blockLengths := by decide
  apart := List.pairwise_singleton _ _
  tiled := by
    intro x
    rw [← coverage_rows]
    change coverage [⟨320, 16⟩, ⟨304, 16⟩] x + coverage [⟨0, 304⟩] x = if x < 336 then 1 else 0
    simp only [coverage_cons, coverage_nil, mem_iff, Extent.stop]
    split_ifs <;> omega

/-- One granule more than the store has is not found, and both items go for it. -/
theorem Partitioned.allocate_ends_twofold :
    (∃ (es : List Eviction) (c' : Cache), twofold.allocate 352 = .ok ⟨none, c', es.map .evicted⟩ ∧
      (es.map (·.id)).Perm [0, 1] ∧ c'.Vacant) ∧
    ∃ (es : List Eviction) (offset : Nat) (c' : Cache),
      twofold.allocate 336 = .ok ⟨some offset, c', es.map .evicted⟩ ∧ es.length ≤ 2 := by
  constructor
  · obtain ⟨es, s, lists', _, _, _, _, ⟨answer, c', hok, hsome, _, hnone⟩ | ⟨hfull, _⟩⟩ :=
      Partitioned.allocate_ends partitioned_twofold 352
    · cases answer with
      | some offset => exact absurd (hsome.1 rfl) (by decide)
      | none =>
          obtain ⟨rfl, hvacant, hperm⟩ := hnone rfl
          exact ⟨es, c', hok, hperm, hvacant⟩
    · exact absurd hfull (by decide)
  · obtain ⟨es, s, lists', _, hle, _, _, ⟨answer, c', hok, hsome, _⟩ | ⟨hfull, _⟩⟩ :=
      Partitioned.allocate_ends partitioned_twofold 336
    · obtain ⟨offset, rfl⟩ := Option.isSome_iff_exists.1 (hsome.2 (Nat.le_refl 336))
      exact ⟨es, offset, c', hok, hle⟩
    · exact absurd hfull (by decide)

end Cache
end BlockCache
