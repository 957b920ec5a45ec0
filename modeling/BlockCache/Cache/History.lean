import BlockCache.Cache.Access
import BlockCache.Cache.Statistics

/-!
# History — requests in a row

The public operations of a cache as data, so that a run is a list. A run gives the answer and the
events of each request and the cache at the end.
-/

namespace BlockCache

inductive Request
  | put (key : UInt32) (data : ByteArray)
  | get (key : UInt32)
  | contains (key : UInt32)
  | empty
  | stats (reset : Bool)
  | occupancy

inductive Answer
  | stored (result : Except CacheError ByteArray)
  | found (bytes : Option ByteArray)
  | present (b : Bool)
  | emptied
  | stats (summary : Summary)
  | occupancy (report : Occupancy)

/-- One request of a run: what was asked, answered and reported. -/
structure Turn where
  request : Request
  answer : Answer
  events : List Event

namespace Cache

def perform (c : Cache) : Request → Except Interruption (Outcome Answer)
  | .put key data => do
      let o ← c.put key data
      return ⟨.stored o.answer, o.cache, o.events⟩
  | .get key => do
      let o ← c.get key
      return ⟨.found o.answer, o.cache, o.events⟩
  | .contains key => do
      return ⟨.present (← c.during (c.contains key)), c, []⟩
  | .empty =>
      let o := c.empty
      .ok ⟨.emptied, o.cache, o.events⟩
  | .stats reset => do
      let o ← c.stats reset
      return ⟨.stats o.answer, o.cache, o.events⟩
  | .occupancy => do
      return ⟨.occupancy (← c.during c.occupancy), c, []⟩

def run (c : Cache) : List Request → Except Interruption (List Turn × Cache)
  | [] => .ok ([], c)
  | r :: rest => do
      let o ← c.perform r
      let (turns, last) ← o.cache.run rest
      return (⟨r, o.answer, o.events⟩ :: turns, last)

end Cache
end BlockCache
