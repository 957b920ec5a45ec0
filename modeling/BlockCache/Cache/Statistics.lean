import BlockCache.Cache.Basic

/-!
# Statistics — counters and occupancy of a cache
-/

namespace BlockCache
namespace Cache

/-- Walks the chain of every bin and the free list. -/
def occupancy (c : Cache) : Except Fault Occupancy := do
  let lengths ← (List.range c.layout.binCount).mapM c.catalog.directory.chainLength
  let free := c.catalog.free
  Occupancy.measure lengths c.layout.entryCount c.layout.storeLength
    free.freeBytes free.blocks.length free.largestBlock

/-- Reports the counters as they are, and clears them afterwards if `reset` is set. -/
def stats (c : Cache) (reset : Bool) : Except Interruption (Outcome Summary) := do
  let occupancy ← if c.config.detailedStats then some <$> c.during c.occupancy else pure none
  let counters := if reset then c.counters.reset else c.counters
  return ⟨⟨c.counters, occupancy⟩, { c with counters := counters }, []⟩

/-- A text of the cache that leaves out its entries and bytes. -/
def text (c : Cache) : String :=
  Text.partialRecord "Cache" [
    ("layout", c.layout.text),
    ("len", toString c.len),
    ("time", toString c.time),
    ("stats", c.counters.text),
    ("first_free", Text.optional c.catalog.free.firstFree),
    ("self_allocated", Text.bool c.owned)]

end Cache
end BlockCache
