import BlockCache.Cache.Access
import BlockCache.Proofs.Cache.Sound

/-!
# Lookup — what `get` and `contains` answer

Both answer what the cache holds. A hit stamps the item that it finds and advances the clock; it
stops at the last tick of the clock. A miss only counts, and stops when the counter of misses is
full. Nothing stops `contains`.
-/

namespace BlockCache
namespace Cache

variable {c c' : Cache} {lists : Nat → List Nat} {loose : List Nat} {held : List Extent}
  {key : UInt32} {data : ByteArray}

/-- The cache after a hit, whose directory has a new time for the item. -/
def afterHit (c : Cache) (d' : Directory) : Cache :=
  { c.withDirectory d' with time := c.time + 1, counters.hits := c.counters.hits + 1 }

/-- The cache after a miss. -/
def afterMiss (c : Cache) : Cache :=
  { c with counters.misses := c.counters.misses + 1 }

/-- What a cache holds is read off the keys and places of its items, and the store. -/
theorem holds_congr (hbins : c'.catalog.directory.binCount = c.catalog.directory.binCount)
    (hstore : c'.store = c.store)
    (hitems : ∀ id, ∃ t, c'.catalog.directory.item id =
      { c.catalog.directory.item id with time := t }) :
    c'.Holds lists key data ↔ c.Holds lists key data := by
  unfold Holds
  rw [hbins, hstore]
  refine exists_congr fun id => and_congr_right fun _ => ?_
  obtain ⟨t, ht⟩ := hitems id
  rw [ht]

namespace Sound

theorem not_holds_iff (h : c.Sound lists loose held) :
    (¬ ∃ data, c.Holds lists key data) ↔
      ∀ id ∈ rows lists c.catalog.directory.binCount,
        (c.catalog.directory.item id).key ≠ key := by
  constructor
  · rintro hnone id hid rfl
    obtain ⟨data, hread⟩ := h.read_item hid
    exact hnone ⟨data, id, hid, rfl, hread⟩
  · rintro hother ⟨data, id, hid, hkey, _⟩
    exact hother id hid hkey

theorem contains_spec (h : c.Sound lists loose held) (key : UInt32) :
    ∃ b, c.contains key = .ok b ∧ (b = true ↔ ∃ data, c.Holds lists key data) := by
  rcases h.find_spec key with ⟨hfind, hnone⟩ | ⟨id, front, back, hid, hkey, _, hfind⟩
  · refine ⟨false, ?_, ?_⟩
    · simp only [contains, hfind, ok_bind]
      rfl
    · simpa using h.not_holds_iff.2 hnone
  · refine ⟨true, ?_, ?_⟩
    · simp only [contains, hfind, ok_bind]
      rfl
    · obtain ⟨data, hread⟩ := h.read_item hid
      exact iff_of_true rfl ⟨data, id, hid, hkey, hread⟩

theorem get_missed (h : c.Sound lists loose held) (hnone : ¬ ∃ data, c.Holds lists key data)
    (hcount : c.counters.misses + 1 < Word.limit) :
    c.get key = .ok ⟨none, c.afterMiss, []⟩ := by
  have hfind := h.laid.find_missed (h.not_holds_iff.1 hnone)
  simp only [get, hfind, during_ok, ok_bind, Counters.miss_of_lt hcount]
  rfl

theorem get_missed_overflow (h : c.Sound lists loose held)
    (hnone : ¬ ∃ data, c.Holds lists key data) (hcount : Word.limit ≤ c.counters.misses + 1) :
    c.get key = .error (c.interruption .overflow) := by
  have hfind := h.laid.find_missed (h.not_holds_iff.1 hnone)
  simp only [get, hfind, during_ok, ok_bind, Counters.miss_of_le hcount]
  rfl

/-- A hit changes the time of its item, the clock and the counter of hits, and nothing else. -/
theorem get_found (h : c.Sound lists loose held) (hdata : c.Holds lists key data)
    (htime : c.time + 1 < Word.limit) :
    ∃ id d', c.get key = .ok ⟨some data, c.afterHit d', []⟩ ∧
      (c.afterHit d').Sound lists loose held ∧
      id ∈ rows lists c.catalog.directory.binCount ∧
      (c.catalog.directory.item id).key = key ∧
      d'.binCount = c.catalog.directory.binCount ∧
      d'.item = Function.update c.catalog.directory.item id
        { c.catalog.directory.item id with time := c.time } := by
  rcases hdata with ⟨id, hid, rfl, hread⟩
  obtain ⟨front, back, hlist, hfind⟩ := h.laid.find_found hid
  have hbin := h.laid.binOf_lt (c.catalog.directory.item id).key
  have hlt : id < c.catalog.directory.capacity :=
    h.laid.spells.lt_capacity (Nat.le_of_lt hbin) (by simp [hlist])
  -- The stamp changes neither where the bytes are nor how many they are.
  obtain ⟨d', hadjust, hlaid, hbins, hcapacity, hitems⟩ := h.laid.stamp_spec hlt c.time
  obtain ⟨e, hentry, _, hitem⟩ := Directory.entry_of_lt (hcapacity ▸ hlt)
  have hitem' : { e with next := none } = { c.catalog.directory.item id with time := c.time } := by
    rw [hitem, hitems, Function.update_self]
  simp only [Entry.mk.injEq] at hitem'
  rcases hitem' with ⟨_, _, hoffset, _, hlength, _⟩
  have hbytes : c.store.read e.offset e.dataLength = .ok data := by
    rw [hoffset, hlength]
    exact hread
  refine ⟨id, d', ?_, ?_, hid, rfl, hbins, hitems⟩
  · simp only [get, hfind, during_ok, ok_bind, tick_of_lt htime, hadjust, hentry, withDirectory,
      Counters.hit_of_lt (h.hits_lt htime), hbytes]
    rfl
  · -- The clock and the counter of hits go up by one each.
    have hcounted := h.counted_le
    refine h.withCatalog hlaid hbins hcapacity rfl h.len_eq htime ?_
    show c.counters.hits + 1 + c.counters.evictions + c.len ≤ c.time + 1
    omega

theorem get_overflow (h : c.Sound lists loose held) (hdata : c.Holds lists key data)
    (htime : Word.limit ≤ c.time + 1) : c.get key = .error (c.interruption .overflow) := by
  rcases hdata with ⟨id, hid, rfl, _⟩
  obtain ⟨front, back, _, hfind⟩ := h.laid.find_found hid
  simp only [get, hfind, during_ok, ok_bind, tick_of_le htime]
  rfl

end Sound
end Cache
end BlockCache
