import BlockCache.Cache.Evict

/-!
# Access — storing and looking up items

`put` replaces the item of its key and evicts others as needed. `get` counts as a lookup and
refreshes the item it finds; `contains` does neither.
-/

namespace BlockCache
namespace Cache

/-! ## Looking up -/

def get (c : Cache) (key : UInt32) : Except Interruption (Outcome (Option ByteArray)) := do
  match ← c.during (c.catalog.directory.find key) with
  | none =>
      let counters ← c.during c.counters.miss
      return ⟨none, { c with counters := counters }, []⟩
  | some place =>
      let (now, c) ← c.tick
      let d ← c.during (c.catalog.directory.adjust place.id fun e => { e with time := now })
      let e ← c.during (d.entry place.id)
      let counters ← c.during c.counters.hit
      let c := { c.withDirectory d with counters := counters }
      let bytes ← c.during (c.store.read e.offset e.dataLength)
      return ⟨some bytes, c, []⟩

def contains (c : Cache) (key : UInt32) : Except Fault Bool := do
  return (← c.catalog.directory.find key).isSome

/-! ## Storing -/

/-- The bytes are checked first, so that the store is changed in place. -/
def write (c : Cache) (offset : Nat) (data : ByteArray) : Except Interruption Cache :=
  if c.store.fits offset data.size then
    .ok { c with store := c.store.overwrite offset data }
  else
    .error (c.interruption .outsideMemory)

/-- Enters an item whose bytes are already in the store, as the newest of its bin. -/
def enter (c : Cache) (id : Nat) (key : UInt32) (extent : Extent) (dataLength : Nat) :
    Except Interruption Cache := do
  let (now, c) ← c.tick
  let catalog ← c.during (c.catalog.link id {
    next := none
    key := key
    offset := extent.offset
    length := extent.length
    dataLength := dataLength
    time := now })
  let len ← c.during (Word.checked (c.len + 1))
  return { c with catalog := catalog, len := len }

/-- Stores `data` in an extent of `length` bytes, which is known not to exceed the store. -/
def insert (c : Cache) (key : UInt32) (data : ByteArray) (length : Nat) :
    Except Interruption (Outcome (Except CacheError ByteArray)) := do
  let tooBig := CacheError.tooBig data.size c.maxLength
  -- The space and the entry of the old item can be used again.
  let (_, c) ← c.forget key
  let space ← c.allocate length
  match space.answer with
  | none => return ⟨.error tooBig, space.cache, space.events⟩
  | some offset =>
      let c ← space.cache.write offset data
      let found ← c.acquire
      let c := found.cache
      let events := space.events ++ found.events
      match found.answer with
      | none =>
          -- Space without an entry goes back.
          let free ← c.during (c.catalog.free.giveBack ⟨offset, length⟩)
          return ⟨.error tooBig, c.withFree free, events⟩
      | some id =>
          let c ← c.enter id key ⟨offset, length⟩ data.size
          -- The answer is what the store has, not what was given.
          let stored ← c.during (c.store.read offset data.size)
          return ⟨.ok stored, c, events⟩

def put (c : Cache) (key : UInt32) (data : ByteArray) :
    Except Interruption (Outcome (Except CacheError ByteArray)) :=
  if data.size = 0 then
    .ok ⟨.error (.badArgument .emptyItem), c, []⟩
  else
    match (roundToGranule data.size).filter (· ≤ c.maxLength) with
    | some length => c.insert key data length
    | none =>
        .ok ⟨.error (.tooBig data.size c.maxLength), c,
          [.rejected key data.size c.maxLength]⟩

/-! ## Emptying -/

/-- Forgets every item and counter. The bytes of the store stay as they are. -/
def empty (c : Cache) : Outcome Unit where
  answer := ()
  cache := { c with
    time := 0
    len := 0
    catalog := c.catalog.clear
    counters := c.counters.reset }
  events := [.emptied c.maxLength]

end Cache
end BlockCache
