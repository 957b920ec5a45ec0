import BlockCache.Proofs.Cache.Bounds
import BlockCache.Proofs.Cache.Twins

/-!
# Renewal — an emptied cache is as good as new

Emptying a cache writes every link, head, time and counter anew and leaves only the bytes of the
store as they were. What these parts contained before does not matter, as long as they have the
sizes that were planned (`Shaped`). So the emptied cache is a twin of a new one, and the old bytes
are never seen (`Shaped.empty_renews`).
-/

namespace BlockCache

/-- Clearing a catalog forgets all of it but its sizes. -/
theorem Catalog.clear_congr {k k' : Catalog} (hbins : k'.directory.binCount = k.directory.binCount)
    (hcapacity : k'.directory.capacity = k.directory.capacity)
    (hlength : k'.free.storeLength = k.free.storeLength) : k'.clear = k.clear := by
  simp only [clear, Directory.clear, FreeList.reset, hbins, hcapacity, hlength]

theorem Catalog.clear_of_create {entries bins storeLength : Nat} {k : Catalog}
    (h : create entries bins storeLength = .ok k) : k.clear = k := by
  obtain ⟨d, hdirectory, h⟩ := eq_ok_of_bind h
  obtain ⟨f, hfree, h⟩ := eq_ok_of_bind h
  cases h
  obtain ⟨rfl, _⟩ := Directory.create_eq_ok hdirectory
  obtain ⟨rfl, _⟩ := FreeList.create_eq_ok (eq_ok_of_mapError hfree)
  have hcapacity : (Directory.threaded entries).size = entries := Array.size_ofFn
  simp only [clear, Directory.clear, Directory.binCount, Directory.capacity, FreeList.reset,
    Array.size_replicate, hcapacity]

namespace Cache

variable {c c₀ : Cache}

theorem Fresh.plan_eq (h : c.Fresh) : Layout.plan c.layout.totalLength c.config = .ok c.layout := by
  obtain ⟨config, l, total, k, store, hplan, _, _, _, rfl⟩ := h.assembled
  rwa [(Layout.plan_fits hplan).2]

/-- There is nothing to empty in a new cache. -/
theorem Fresh.empty_eq (h : c.Fresh) : c.empty.cache = c := by
  obtain ⟨config, l, total, k, store, _, hcreate, _, _, rfl⟩ := h.assembled
  simp only [empty, Catalog.clear_of_create hcreate, Counters.reset]

/-- One layout plans one size for each part. -/
theorem Planned.sizes_eq (h : c.Planned) (h₀ : c₀.Planned) (hlayout : c₀.layout = c.layout) :
    c.catalog.directory.binCount = c₀.catalog.directory.binCount ∧
      c.catalog.directory.capacity = c₀.catalog.directory.capacity ∧
      c.catalog.free.storeLength = c₀.catalog.free.storeLength ∧
      c.store.length = c₀.store.length := by
  rw [h.bins_eq, h.entries_eq, h.free_eq, h.store_eq, h₀.bins_eq, h₀.entries_eq, h₀.free_eq,
    h₀.store_eq, hlayout]
  exact ⟨rfl, rfl, rfl, rfl⟩

/-- Evictions can name nothing where there is no item. -/
theorem Names.eq_nil {lists : Nat → List Nat} {es : List Eviction} (h : c.Names lists es)
    (hempty : rows lists c.catalog.directory.binCount = []) : es = [] := by
  refine List.eq_nil_iff_forall_not_mem.2 fun e he => ?_
  obtain ⟨hbin, hid, _⟩ := h e he
  have hrow : e.id ∈ rows lists c.catalog.directory.binCount := mem_rows.2 ⟨e.bin, hbin, hid⟩
  rw [hempty] at hrow
  cases hrow

/-- An item that is put where there is none is the only one. -/
theorem Puts.rows_of_no_items {c' : Cache} {lists lists' : Nat → List Nat} {key : UInt32}
    {data : ByteArray} {es : List Eviction} {id : Nat} {extent : Extent}
    (h : c.Puts lists key data es id extent c' lists') (hc : c.Sound lists [] [])
    (hempty : rows lists c.catalog.directory.binCount = []) :
    (rows lists' c'.catalog.directory.binCount).Perm [id] := by
  refine (List.perm_ext_iff_of_nodup (h.sound.laid.spells.rows_nodup (Nat.le_succ _))
    (List.nodup_singleton id)).2 fun x => ?_
  rw [h.mem_rows_iff hc, hempty, List.mem_singleton]
  simp only [List.not_mem_nil, false_and, false_or]

/-- A cache with the sizes of one that was created. What its parts contain may be broken in any
way. -/
structure Shaped (c : Cache) : Prop where
  planned : c.Planned
  created : ∃ c₁ : Cache, c₁.Fresh ∧ c₁.config = c.config ∧ c₁.layout = c.layout

namespace Shaped

theorem sized (h : c.Shaped) : c.catalog.Sized := by
  obtain ⟨c₁, hfresh, _, hlayout⟩ := h.created
  have hsound := hfresh.sound.1
  obtain ⟨hbins, hcapacity, hfree, _⟩ := h.planned.sizes_eq hsound.toPlanned hlayout
  exact hsound.laid.toSized.congr hbins hcapacity hfree

theorem empty_sound (h : c.Shaped) : c.empty.cache.Sound (blankLists c.layout) [] [] :=
  h.planned.empty_sound h.sized

/-- A new cache differs from the emptied one in its store only. -/
theorem alike_empty (h : c.Shaped) (hfresh : c₀.Fresh) (hconfig : c₀.config = c.config)
    (htotal : c₀.layout.totalLength = c.layout.totalLength) : c₀.Alike c.empty.cache := by
  obtain ⟨c₁, hfresh₁, hconfig₁, hlayout₁⟩ := h.created
  -- Both have been planned from the same figures.
  have hlayout : c₀.layout = c.layout := by
    have hplan := hfresh.plan_eq
    rw [hconfig, htotal, ← hconfig₁, ← hlayout₁, hfresh₁.plan_eq] at hplan
    rw [← hlayout₁]
    exact (Except.ok.inj hplan).symm
  obtain ⟨hbins, hcapacity, hfree, hstore⟩ :=
    h.planned.sizes_eq hfresh.sound.1.toPlanned hlayout
  have hclear := Catalog.clear_congr hbins hcapacity hfree
  refine ⟨c.store, hstore, ?_⟩
  rw [← hfresh.empty_eq]
  simp only [empty, Counters.reset, hclear, hconfig, hlayout]

/-- An item that takes the whole store finds it free, and leaves nothing of it. -/
theorem put_whole (h : c.Shaped) (key : UInt32) {data : ByteArray}
    (hsize : data.size = c.layout.storeLength) :
    ∃ c', c.empty.cache.put key data = .ok ⟨.ok data, c', []⟩ ∧ c'.len = 1 ∧
      c'.catalog.free.freeBytes = 0 ∧ ∃ c'', c'.get key = .ok ⟨some data, c'', []⟩ := by
  have hsound := h.empty_sound
  have hpos : 0 < data.size := by
    rw [hsize, ← h.planned.free_eq]
    exact h.sized.store_pos
  obtain ⟨es, id, extent, c', lists', hput, hputs⟩ :=
    hsound.put_spec key (show 0 + 1 < Word.limit by decide) hpos (Nat.le_of_eq hsize)
  have hempty : rows (blankLists c.layout) c.empty.cache.catalog.directory.binCount = [] :=
    hsound.rows_blank
  obtain rfl := hputs.names.eq_nil hempty
  have honly := hputs.rows_of_no_items hsound hempty
  obtain ⟨d', hget⟩ := hputs.get_self hsound (show 0 + 2 < Word.limit by decide)
  refine ⟨c', hput, hputs.sound.len_eq.trans honly.length_eq, ?_, _, hget⟩
  have hused := hputs.sound.sumOf_lengths
  rw [sumOf_perm (honly.map _), hputs.layout_eq] at hused
  simp only [List.map_cons, List.map_nil, sumOf_cons, hputs.item_self, newEntry] at hused
  -- The rounded length is no shorter than the item, which is as long as the store.
  have hle := (roundToGranule_eq_some hputs.rounded).1
  have hlayout : c.empty.cache.layout.storeLength = c.layout.storeLength := rfl
  omega

/-- Emptying a cache whose parts have their planned sizes repairs it: the audit finds nothing, no
requests tell it apart from a new cache of the same configuration and budget, and an item that takes
the whole store is stored without an eviction: it is then the only item, no byte is left free, and a
lookup finds it. -/
theorem empty_renews (h : c.Shaped) :
    c.empty.cache.audit = .ok none ∧
    (∀ c₀ : Cache, c₀.Fresh → c₀.config = c.config →
      c₀.layout.totalLength = c.layout.totalLength → c₀.Indistinguishable c.empty.cache) ∧
    ∀ key data, data.size = c.layout.storeLength →
      ∃ c', c.empty.cache.put key data = .ok ⟨.ok data, c', []⟩ ∧ c'.len = 1 ∧
        c'.catalog.free.freeBytes = 0 ∧ ∃ c'', c'.get key = .ok ⟨some data, c'', []⟩ := by
  have hsound := h.empty_sound
  refine ⟨?_, fun c₀ hfresh hconfig htotal => ?_, fun key data => h.put_whole key⟩
  · obtain ⟨c₁, hfresh₁, _, hlayout₁⟩ := h.created
    refine hsound.audit_eq ?_
    show c.layout.entryCount ≤ Directory.maxEntries
    rw [← hlayout₁]
    exact hfresh₁.layout_fits.2
  · exact ((h.alike_empty hfresh hconfig htotal).twins hfresh.sound.1 hsound).indistinguishable

end Shaped

/-- A cache of the smallest budget that is broken in every part: the head of its bin and the spare
head lead nowhere, the entries are linked to a ring and reserve the same bytes, the free blocks
overlap, and neither the count nor the clock fits. -/
def wrecked : Cache where
  config := {}
  layout := smallest.layout
  time := Word.limit - 1
  len := 99
  catalog := ⟨⟨#[some 7], some 9, #[⟨some 1, 5, 3, 1000, 4, 8⟩, ⟨some 0, 5, 3, 1000, 4, 8⟩]⟩,
    ⟨[⟨320, 5⟩, ⟨0, 1000⟩], 336⟩⟩
  store := ⟨Region.filled 336 255, 0, 336, true⟩
  counters := ⟨3, 4, 5⟩

theorem shaped_wrecked : wrecked.Shaped where
  planned := ⟨rfl, rfl, rfl, rfl, Nat.le_of_eq (Region.size_filled 336 255).symm⟩
  created := ⟨smallest, fresh_smallest, rfl, rfl⟩

theorem Shaped.empty_renews_wrecked :
    wrecked.audit ≠ .ok none ∧ wrecked.empty.cache.audit = .ok none ∧
      smallest.Indistinguishable wrecked.empty.cache ∧
      ∃ c', wrecked.empty.cache.put 7 (Region.filled 336 1) =
        .ok ⟨.ok (Region.filled 336 1), c', []⟩ ∧ c'.len = 1 ∧ c'.catalog.free.freeBytes = 0 ∧
        ∃ c'', c'.get 7 = .ok ⟨some (Region.filled 336 1), c'', []⟩ := by
  obtain ⟨haudit, hsame, hwhole⟩ := Shaped.empty_renews shaped_wrecked
  exact ⟨by decide, haudit, hsame smallest fresh_smallest rfl rfl,
    hwhole 7 _ (Region.size_filled 336 1)⟩

end Cache
end BlockCache
