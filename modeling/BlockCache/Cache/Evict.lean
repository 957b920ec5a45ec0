import BlockCache.Cache.Basic

/-!
# Evict — making room in a cache

Space and entries are taken from what is unused; only when there is none are bin heads evicted.
Every eviction lowers the number of items, is counted, and is reported. What was evicted before a
fault stays evicted.
-/

namespace BlockCache
namespace Cache

def evict (c : Cache) : Except Interruption (Outcome (Option Eviction)) := do
  match ← c.during c.catalog.evict with
  | (none, catalog) => return ⟨none, { c with catalog := catalog }, []⟩
  | (some e, catalog) =>
      if c.len = 0 then throw (c.interruption .negativeCount)
      -- The item has gone when its eviction is counted.
      let c := { c with catalog := catalog, len := c.len - 1 }
      let counters ← c.during c.counters.evict
      return ⟨some e, { c with counters := counters }, [.evicted e]⟩

/-! ## Space -/

/-- The offset of `length` bytes, evicting until some block has them or nothing is left to evict.
At most `count` items go. -/
def allocateWithin (length count : Nat) (c : Cache) :
    Except Interruption (Outcome (Option Nat)) :=
  match c.catalog.free.allocate length with
  | some (offset, free) => .ok ⟨some offset, c.withFree free, []⟩
  | none => do
      let evicted ← c.evict
      match evicted.answer with
      | none => return ⟨none, evicted.cache, []⟩
      | some _ =>
          match count with
          -- More items than were counted: the count would have become negative.
          | 0 => throw (evicted.cache.interruption .negativeCount)
          | count + 1 =>
              let rest ← allocateWithin length count evicted.cache
              return ⟨rest.answer, rest.cache, evicted.events ++ rest.events⟩

/-- Every eviction takes one item away, so as many as there are items are enough. -/
def allocate (c : Cache) (length : Nat) : Except Interruption (Outcome (Option Nat)) :=
  allocateWithin length c.len c

/-! ## Entries -/

/-- A spare entry, if there is one. -/
def claim (c : Cache) : Except Interruption (Option Nat × Cache) := do
  let (id, d) ← c.during c.catalog.directory.claim
  return (id, c.withDirectory d)

/-- A spare entry, evicting one item if there is none. -/
def acquire (c : Cache) : Except Interruption (Outcome (Option Nat)) := do
  match ← c.claim with
  | (some id, c) => return ⟨some id, c, []⟩
  | (none, c) =>
      let evicted ← c.evict
      match evicted.answer with
      | none => return ⟨none, evicted.cache, []⟩
      | some _ =>
          let (id, c) ← evicted.cache.claim
          return ⟨id, c, evicted.events⟩

/-! ## Forgetting -/

/-- Drops the item of `key`, if there is one. This is no eviction. -/
def forget (c : Cache) (key : UInt32) : Except Interruption (Bool × Cache) := do
  match ← c.during (c.catalog.directory.find key) with
  | none => return (false, c)
  | some place =>
      let catalog ← c.during (c.catalog.drop place)
      if c.len = 0 then throw (c.interruption .negativeCount)
      return (true, { c with catalog := catalog, len := c.len - 1 })

end Cache
end BlockCache
